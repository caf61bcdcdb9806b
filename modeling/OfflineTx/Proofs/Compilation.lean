import Mathlib.Data.List.Forall2
import OfflineTx.Proofs.Permissions
import OfflineTx.Proofs.Seen

/-!
# What is compiled

The table of a compiled message is the fee payer followed by the other addresses in four groups,
each in the order in which its addresses are first seen (`table`). A compilation that passes the
limits on signers and accounts gives the message laid out over this table, if it fits a packet
(`compile_eq`). The message grants each account what some reference asks for it, and its indices
lead back to the addresses of the instructions (`compiledFrom_of_compile`).
-/

namespace OfflineTx

section Table

/-- The addresses other than the fee payer with these permissions, in the order in which they are
first seen. -/
def tableGroup (feePayer : Address) (refs : List AccountMeta) (signer writable : Bool) :
    List Address :=
  (firstSeen refs).filter fun a =>
    a ≠ feePayer ∧ signs refs a = signer ∧ writes refs a = writable

/-- The fee payer, then signers that are written and signers that are not, then other accounts that
are written and others that are not. -/
def table (feePayer : Address) (refs : List AccountMeta) : List Address :=
  feePayer :: (tableGroup feePayer refs true true ++ tableGroup feePayer refs true false ++
    tableGroup feePayer refs false true ++ tableGroup feePayer refs false false)

def signerTotal (feePayer : Address) (refs : List AccountMeta) : Nat :=
  1 + (tableGroup feePayer refs true true).length + (tableGroup feePayer refs true false).length

variable {feePayer a : Address} {refs : List AccountMeta} {signer writable : Bool}

theorem mem_tableGroup : a ∈ tableGroup feePayer refs signer writable ↔
    a ∈ firstSeen refs ∧ a ≠ feePayer ∧ signs refs a = signer ∧ writes refs a = writable := by
  rw [tableGroup, List.mem_filter, decide_eq_true_eq]

theorem nodup_tableGroup (feePayer : Address) (refs : List AccountMeta) (signer writable : Bool) :
    (tableGroup feePayer refs signer writable).Nodup :=
  List.Pairwise.filter _ (nodup_firstSeen refs)

theorem mem_table : a ∈ table feePayer refs ↔ a = feePayer ∨ a ∈ firstSeen refs := by
  simp only [table, List.mem_cons, List.mem_append, mem_tableGroup]
  by_cases h : a = feePayer
  · simp [h]
  · rcases signs refs a with _ | _ <;> rcases writes refs a with _ | _ <;> simp [h]

theorem nodup_table (feePayer : Address) (refs : List AccountMeta) :
    (table feePayer refs).Nodup := by
  have hnd := nodup_tableGroup feePayer refs
  refine List.nodup_cons.2 ⟨?_, ?_⟩
  · simp [mem_tableGroup]
  · refine List.nodup_append.2 ⟨List.nodup_append.2 ⟨List.nodup_append.2 ⟨hnd _ _, hnd _ _, ?_⟩,
      hnd _ _, ?_⟩, hnd _ _, ?_⟩
    all_goals
      rintro a ha _ hb rfl
      simp only [List.mem_append, mem_tableGroup] at ha hb
      simp_all

theorem length_groups (f g : Address → Bool) : ∀ l : List Address,
    (l.filter fun a => f a = true ∧ g a = true).length +
      (l.filter fun a => f a = true ∧ g a = false).length +
      (l.filter fun a => f a = false ∧ g a = true).length +
      (l.filter fun a => f a = false ∧ g a = false).length = l.length
  | [] => rfl
  | a :: l => by
    have ih := length_groups f g l
    rcases hf : f a with _ | _ <;> rcases hg : g a with _ | _ <;>
      simp only [List.filter_cons, hf, hg, List.length_cons, reduceCtorEq, and_self, and_false,
        false_and, decide_true, decide_false, if_true, if_false, Bool.false_eq_true] <;> omega

theorem tableGroup_eq (feePayer : Address) (refs : List AccountMeta) (signer writable : Bool) :
    tableGroup feePayer refs signer writable = ((firstSeen refs).filter (· ≠ feePayer)).filter
      fun a => signs refs a = signer ∧ writes refs a = writable := by
  rw [List.filter_filter, tableGroup]
  refine List.filter_congr fun a _ => ?_
  simp only [Bool.decide_and, Bool.and_comm]

theorem length_table_references (feePayer : Address) (ixs : List Instruction) :
    (table feePayer (references feePayer ixs)).length =
      (firstSeen (references feePayer ixs)).length := by
  have hsum := length_groups (signs (references feePayer ixs)) (writes (references feePayer ixs))
    ((firstSeen (references feePayer ixs)).filter (· ≠ feePayer))
  simp only [← tableGroup_eq] at hsum
  rw [firstSeen_references, List.length_cons, ← hsum, table]
  simp only [List.length_cons, List.length_append]

theorem mem_table_references {ixs : List Instruction} :
    a ∈ table feePayer (references feePayer ixs) ↔ a = feePayer ∨
      ∃ ix ∈ ixs, a = ix.program ∨ ∃ r ∈ ix.accounts, a = r.address := by
  simp only [mem_table, mem_firstSeen, references, List.mem_cons, List.mem_flatMap,
    Instruction.references, List.mem_append, List.not_mem_nil, or_false]
  constructor
  · rintro (rfl | ⟨r, rfl | ⟨ix, hix, hr | rfl⟩, rfl⟩)
    · exact .inl rfl
    · exact .inl rfl
    · exact .inr ⟨ix, hix, .inr ⟨r, hr, rfl⟩⟩
    · exact .inr ⟨ix, hix, .inl rfl⟩
  · rintro (rfl | ⟨ix, hix, rfl | ⟨r, hr, rfl⟩⟩)
    · exact .inl rfl
    · exact .inr ⟨_, .inr ⟨ix, hix, .inr rfl⟩, rfl⟩
    · exact .inr ⟨r, .inr ⟨ix, hix, .inl hr⟩, rfl⟩

end Table

def Instruction.indexed (keys : List Address) (ix : Instruction) : CompiledInstruction where
  program := (keys.idxOf ix.program).toUInt8
  accounts := ix.accounts.map fun a => (keys.idxOf a.address).toUInt8
  data := ix.data

/-- The message over the table, whatever its size. -/
def Message.laidOut (version : Version) (feePayer : Address) (recentHash : Hash)
    (ixs : List Instruction) : Message :=
  let refs := references feePayer ixs
  { version
    header :=
      { required := (signerTotal feePayer refs).toUInt8
        readonlySigned := (tableGroup feePayer refs true false).length.toUInt8
        readonlyUnsigned := (tableGroup feePayer refs false false).length.toUInt8 }
    keys := table feePayer refs
    recentHash
    instructions := ixs.map (Instruction.indexed (table feePayer refs)) }

namespace Compiler

variable {c : Compiler} {feePayer : Address} {ixs : List Instruction}

section Groups

variable {index : Address → UInt8} (h : c.Collected (references feePayer ixs) index)
include h

theorem Collected.others_eq : c.others =
    ((firstSeen (references feePayer ixs)).filter (· ≠ feePayer)).map
      (seenAs (references feePayer ixs) index) := by
  rw [others, h.seen_eq]
  conv => lhs; rw [firstSeen_references]
  rfl

theorem Collected.addresses_group (signer writable : Bool) :
    (c.group signer writable).map (·.address) =
      tableGroup feePayer (references feePayer ixs) signer writable := by
  rw [group, h.others_eq, List.filter_map, List.map_map, tableGroup_eq]
  have hid : ((fun s : SeenAccount => s.address) ∘ seenAs (references feePayer ixs) index) = id :=
    rfl
  rw [hid, List.map_id]
  refine List.filter_congr fun a _ => ?_
  rw [Bool.eq_iff_iff]
  simp [seenAs]

theorem Collected.length_group (signer writable : Bool) :
    (c.group signer writable).length =
      (tableGroup feePayer (references feePayer ixs) signer writable).length := by
  rw [← h.addresses_group, List.length_map]

theorem Collected.table_eq :
    feePayer :: c.groups.map (·.address) = table feePayer (references feePayer ixs) := by
  simp only [groups, List.map_append, h.addresses_group, table]

theorem Collected.layOut : c.layOut.Collected (references feePayer ixs) fun a =>
    if a ∈ c.groups.map (·.address) then (1 + (c.groups.map (·.address)).idxOf a).toUInt8
    else index a := by
  have hnd := nodup_table feePayer (references feePayer ixs)
  rw [← h.table_eq] at hnd
  have hfold := Collected.foldl_setIndex (c.groups.map (·.address)) 1 h (fun a ha => ?_)
    (List.nodup_cons.1 hnd).2
  · rw [List.zipIdx_map, List.foldl_map] at hfold
    exact hfold
  · have hmem : a ∈ table feePayer (references feePayer ixs) := by
      rw [← h.table_eq]
      exact List.mem_cons_of_mem _ ha
    rw [mem_table] at hmem
    rcases hmem with rfl | hmem
    · exact absurd ha (List.nodup_cons.1 hnd).1
    · exact hmem

end Groups

theorem Collected.index_layOut (h : c.Collected (references feePayer ixs) fun _ => 0)
    {a : Address} (ha : a ∈ firstSeen (references feePayer ixs)) :
    c.layOut.index a = ((table feePayer (references feePayer ixs)).idxOf a).toUInt8 := by
  have hnd := nodup_table feePayer (references feePayer ixs)
  have hmem : a ∈ table feePayer (references feePayer ixs) := mem_table.2 (.inr ha)
  rw [← h.table_eq] at hnd hmem ⊢
  rw [h.layOut.index_eq ha]
  rcases List.mem_cons.1 hmem with rfl | hg
  · rw [if_neg (List.nodup_cons.1 hnd).1, List.idxOf_cons_self]
    rfl
  · rw [if_pos hg, List.idxOf_cons_ne, Nat.add_comm]
    rintro rfl
    exact (List.nodup_cons.1 hnd).1 hg

theorem Collected.resolve_layOut (h : c.Collected (references feePayer ixs) fun _ => 0)
    {ix : Instruction} (hix : ix ∈ ixs) :
    c.layOut.resolve ix = ix.indexed (table feePayer (references feePayer ixs)) := by
  have hprog : ix.program ∈ firstSeen (references feePayer ixs) :=
    mem_firstSeen_references hix ix.program_mem_references
  unfold resolve Instruction.indexed
  rw [h.index_layOut hprog]
  congr 1
  exact List.map_congr_left fun r hr =>
    h.index_layOut (mem_firstSeen_references hix (List.mem_append_left _ hr))

/-- A compilation fails at the first limit that its table passes, and otherwise gives the message
over the table, if it fits a packet. What the compiler held before does not matter. -/
theorem compile_eq (hc : 0 < c.positions.nodes.size) (version : Version) (feePayer : Address)
    (recentHash : Hash) (ixs : List Instruction) :
    (c.compile version feePayer recentHash ixs).1 =
      if maxSigners < signerTotal feePayer (references feePayer ixs) then
        .error (.tooManySigners (signerTotal feePayer (references feePayer ixs)))
      else if maxAccounts < (firstSeen (references feePayer ixs)).length then
        .error (.tooManyAccounts (firstSeen (references feePayer ixs)).length)
      else (Message.laidOut version feePayer recentHash ixs).sizeInPacket.map
        fun _ => Message.laidOut version feePayer recentHash ixs := by
  have h := collected_collect hc feePayer ixs
  have hsig : (c.collect feePayer ixs).signerCount =
      signerTotal feePayer (references feePayer ixs) := by
    rw [signerCount, h.length_group, h.length_group, signerTotal]
  have hmsg : (c.collect feePayer ixs).message version feePayer recentHash ixs =
      Message.laidOut version feePayer recentHash ixs := by
    rw [message, Message.laidOut, header, hsig, h.length_group, h.length_group, h.table_eq,
      List.map_congr_left fun ix hix => h.resolve_layOut hix]
  simp only [compile, checkCounts, hsig, h.size_eq, hmsg]
  by_cases hsigners : maxSigners < signerTotal feePayer (references feePayer ixs)
  · simp only [if_pos hsigners]
  · by_cases haccounts : maxAccounts < (firstSeen (references feePayer ixs)).length
    · simp only [if_neg hsigners, if_pos haccounts]
    · simp only [if_neg hsigners, if_neg haccounts]
      rcases (Message.laidOut version feePayer recentHash ixs).sizeInPacket with f | n
      · rfl
      · rfl

end Compiler

namespace Message

variable {version : Version} {feePayer : Address} {recentHash : Hash} {ixs : List Instruction}
  {m : Message}

/-- A message is compiled exactly if the signers and the accounts are within their limits and the
message over the table fits a packet. -/
theorem compile_eq_ok_iff : compile version feePayer recentHash ixs = .ok m ↔
    signerTotal feePayer (references feePayer ixs) ≤ maxSigners ∧
      (firstSeen (references feePayer ixs)).length ≤ maxAccounts ∧
      m = laidOut version feePayer recentHash ixs ∧ ∃ size, m.sizeInPacket = .ok size := by
  rw [compile, Compiler.compile_eq (by decide)]
  split
  · simp only [reduceCtorEq, false_iff]
    omega
  · split
    · simp only [reduceCtorEq, false_iff]
      omega
    · rcases hsize : (laidOut version feePayer recentHash ixs).sizeInPacket with f | n
      · simp only [Except.map, reduceCtorEq, false_iff]
        rintro ⟨-, -, rfl, n, hn⟩
        rw [hsize] at hn
        cases hn
      · simp only [Except.map, Except.ok.injEq]
        constructor
        · rintro rfl
          exact ⟨by omega, by omega, rfl, n, hsize⟩
        · rintro ⟨-, -, rfl, -⟩
          rfl

theorem signs_feePayer : signs (references feePayer ixs) feePayer = true := by
  simp [signs, references]

theorem writes_feePayer : writes (references feePayer ixs) feePayer = true := by
  simp [writes, references]

theorem toNat_toUInt8 {n : Nat} (h : n < 256) : n.toUInt8.toNat = n := by
  rw [Nat.toUInt8, UInt8.toNat_ofNat']
  omega

section LaidOut

variable (hs : signerTotal feePayer (references feePayer ixs) ≤ maxSigners)
  (hn : (firstSeen (references feePayer ixs)).length ≤ maxAccounts)
include hs hn

theorem laidOut_grouped : (laidOut version feePayer recentHash ixs).Grouped
    (feePayer :: tableGroup feePayer (references feePayer ixs) true true)
    (tableGroup feePayer (references feePayer ixs) true false)
    (tableGroup feePayer (references feePayer ixs) false true)
    (tableGroup feePayer (references feePayer ixs) false false) := by
  rw [← length_table_references] at hn
  simp only [table, List.length_cons, List.length_append, signerTotal, maxAccounts,
    maxSigners] at hs hn
  refine ⟨?_, ?_, ?_, ?_⟩
  · simp only [laidOut, table, List.cons_append, List.append_assoc]
  · simp only [laidOut, required, signerTotal]
    rw [toNat_toUInt8 (by omega), List.length_cons]
    omega
  · exact toNat_toUInt8 (by omega)
  · exact toNat_toUInt8 (by omega)

/-- Each account of the table has the permissions that some reference asks for it. -/
theorem laidOut_permissions (i : Nat)
    (hi : i < (laidOut version feePayer recentHash ixs).keys.length) :
    (laidOut version feePayer recentHash ixs).isSigner (.ofNat i) =
        signs (references feePayer ixs) (laidOut version feePayer recentHash ixs).keys[i] ∧
      (laidOut version feePayer recentHash ixs).isWritable (.ofNat i) =
        writes (references feePayer ixs) (laidOut version feePayer recentHash ixs).keys[i] := by
  refine (laidOut_grouped hs hn).permissions ?_ ?_ ?_ ?_ ?_ i hi
  · rw [laidOut, length_table_references]
    exact Nat.lt_of_le_of_lt hn (by decide)
  · rintro a ha
    rcases List.mem_cons.1 ha with rfl | ha
    · exact ⟨signs_feePayer, writes_feePayer⟩
    · exact (mem_tableGroup.1 ha).2.2
  · exact fun a ha => (mem_tableGroup.1 ha).2.2
  · exact fun a ha => (mem_tableGroup.1 ha).2.2
  · exact fun a ha => (mem_tableGroup.1 ha).2.2

end LaidOut

/-- The indices of a compiled instruction lead to the addresses of an instruction, and its data is
the same. -/
structure Resolves (m : Message) (cix : CompiledInstruction) (ix : Instruction) : Prop where
  program : m.keys[cix.program.toNat]? = some ix.program
  accounts : cix.accounts.map (fun i => m.keys[i.toNat]?) = ix.accounts.map (some ·.address)
  data : cix.data = ix.data

theorem getElem?_indexed {keys : List Address} {a : Address} (hlen : keys.length ≤ maxAccounts)
    (ha : a ∈ keys) : keys[(keys.idxOf a).toUInt8.toNat]? = some a := by
  have hlt := List.idxOf_lt_length_of_mem ha
  rw [toNat_toUInt8 (Nat.lt_of_lt_of_le hlt hlen), List.getElem?_eq_getElem hlt,
    List.getElem_idxOf hlt]

theorem resolves_indexed (hlen : m.keys.length ≤ maxAccounts) {ix : Instruction}
    (hprog : ix.program ∈ m.keys) (haccts : ∀ r ∈ ix.accounts, r.address ∈ m.keys) :
    m.Resolves (ix.indexed m.keys) ix where
  program := getElem?_indexed hlen hprog
  accounts := by
    rw [Instruction.indexed, List.map_map]
    exact List.map_congr_left fun r hr => getElem?_indexed hlen (haccts r hr)
  data := rfl

/-- What a compiled message holds. Its table has the fee payer and every address referred to, each
once, by groups of permissions and within them in the order in which they are first seen. An
account has every permission that some reference asks for it. The instructions are those given. -/
structure CompiledFrom (m : Message) (version : Version) (feePayer : Address) (recentHash : Hash)
    (ixs : List Instruction) : Prop where
  version_eq : m.version = version
  nodup_keys : m.keys.Nodup
  mem_keys : ∀ a, a ∈ m.keys ↔
    a = feePayer ∨ ∃ ix ∈ ixs, a = ix.program ∨ ∃ r ∈ ix.accounts, a = r.address
  keys_eq : m.keys = table feePayer (references feePayer ixs)
  permissions : ∀ (i : Nat) (hi : i < m.keys.length),
    m.isSigner (.ofNat i) = signs (references feePayer ixs) m.keys[i] ∧
      m.isWritable (.ofNat i) = writes (references feePayer ixs) m.keys[i]
  instructions : List.Forall₂ m.Resolves m.instructions ixs
  recentHash_eq : m.recentHash = recentHash
  lookups_eq : m.lookups = []

theorem compiledFrom_of_compile (h : compile version feePayer recentHash ixs = .ok m) :
    m.CompiledFrom version feePayer recentHash ixs := by
  obtain ⟨hs, hn, rfl, -⟩ := compile_eq_ok_iff.1 h
  have hmem : ∀ a, a ∈ (laidOut version feePayer recentHash ixs).keys ↔
      a = feePayer ∨ ∃ ix ∈ ixs, a = ix.program ∨ ∃ r ∈ ix.accounts, a = r.address :=
    fun a => mem_table_references
  have hlen : (laidOut version feePayer recentHash ixs).keys.length ≤ maxAccounts := by
    rwa [laidOut, length_table_references]
  refine ⟨rfl, nodup_table _ _, hmem, rfl, laidOut_permissions hs hn, ?_, rfl, rfl⟩
  refine List.forall₂_map_left_iff.2 (List.forall₂_same.2 fun ix hix => ?_)
  exact resolves_indexed hlen ((hmem _).2 (.inr ⟨ix, hix, .inl rfl⟩))
    fun r hr => (hmem _).2 (.inr ⟨ix, hix, .inr ⟨r, hr, rfl⟩⟩)

/-- A call that another signer and the payer take part in, and a call of a program that was passed
to the first as an account. This one writes what the first only reads. -/
def calls : List Instruction :=
  [{ program := .padded 32 [1]
     accounts := [⟨.padded 32 [2], true, false⟩, ⟨.zero 32, false, true⟩,
      ⟨.padded 32 [3], false, false⟩]
     data := [7] },
    { program := .padded 32 [3]
      accounts := [⟨.padded 32 [1], false, true⟩, ⟨.padded 32 [2], false, true⟩] }]

set_option maxRecDepth 4000 in
theorem compiledFrom_calls :
    compile .v0 (.zero 32) (.padded 32 [9]) calls =
        .ok (laidOut .v0 (.zero 32) (.padded 32 [9]) calls) ∧
      (laidOut .v0 (.zero 32) (.padded 32 [9]) calls).CompiledFrom .v0 (.zero 32)
        (.padded 32 [9]) calls :=
  ⟨rfl, compiledFrom_of_compile rfl⟩

end Message

end OfflineTx
