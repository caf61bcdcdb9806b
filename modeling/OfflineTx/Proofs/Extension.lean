import OfflineTx.Proofs.Appending
import OfflineTx.Proofs.PacketSize

/-!
# What appending keeps

An instruction is appended exactly if the table permits what it asks for and accounts and size stay
within their limits (`append_eq_ok_iff`). Accounts are then put in before the last group of the
table and at its end. An index from the last group on moves by the number of those put in before
it (`shifted`), and where it moves to stands the same account with the same permissions
(`sameAccount_moved`), whether or not the table repeats an address. So the old instructions call
what they called, and the new one finds the accounts it asks for (`extends_of_append`).
-/

namespace OfflineTx

open Wire

section Positions

/-- Where the `i`-th of a list stands after `count` more were put in at `point`. -/
def shifted (point count i : Nat) : Nat :=
  if point ≤ i then i + count else i

theorem toNat_shiftIndex {point count : Nat} {i : UInt8} (h : i.toNat + count < 256) :
    (Message.shiftIndex point count i).toNat = shifted point count i.toNat := by
  unfold Message.shiftIndex shifted
  split
  · rw [UInt8.toNat_add, Message.toNat_toUInt8 (by omega), Nat.mod_eq_of_lt h]
  · rfl

section

variable (front news back rest : List Address)

theorem getElem?_shifted {i : Nat} (hi : i < (front ++ back).length) :
    (front ++ news ++ back ++ rest)[shifted front.length news.length i]? =
      (front ++ back)[i]? := by
  rw [List.length_append] at hi
  unfold shifted
  split
  · rename_i hp
    rw [List.append_assoc, List.append_assoc, List.getElem?_append_right (by omega),
      List.getElem?_append_right (by omega), List.getElem?_append_left (by omega),
      List.getElem?_append_right hp]
    congr 1
    omega
  · rename_i hp
    rw [List.append_assoc, List.append_assoc, List.getElem?_append_left (by omega),
      List.getElem?_append_left (by omega)]

theorem idxOf_shifted {a : Address} (ha : a ∈ front ++ back) (hnews : a ∉ news) :
    (front ++ news ++ back ++ rest).idxOf a =
      shifted front.length news.length ((front ++ back).idxOf a) := by
  unfold shifted
  by_cases hf : a ∈ front
  · have hfront := List.idxOf_lt_length_of_mem hf
    simp only [List.append_assoc, List.idxOf_append, if_pos hf]
    rw [if_neg (Nat.not_le_of_lt hfront)]
  · have hb : a ∈ back := (List.mem_append.1 ha).resolve_left hf
    simp only [List.append_assoc, List.idxOf_append, if_neg hf, if_neg hnews, if_pos hb]
    rw [if_pos (Nat.le_add_left _ _)]
    omega

end

/-- What is at neither of two places of a list was put in between them or behind them. -/
theorem mem_news_of_getElem? {front news back rest : List Address} {i : Nat} {a : Address}
    (h : (front ++ news ++ back ++ rest)[i]? = some a) (hf : a ∉ front) (hb : a ∉ back) :
    (a ∈ news ∧ front.length ≤ i ∧ i < front.length + news.length) ∨
      (a ∈ rest ∧ (front ++ back).length + news.length ≤ i) := by
  rw [List.append_assoc, List.append_assoc] at h
  rcases Nat.lt_or_ge i front.length with hi | hi
  · rw [List.getElem?_append_left hi] at h
    exact absurd (List.mem_of_getElem? h) hf
  rw [List.getElem?_append_right hi] at h
  rcases Nat.lt_or_ge (i - front.length) news.length with hn | hn
  · rw [List.getElem?_append_left hn] at h
    exact .inl ⟨List.mem_of_getElem? h, hi, by omega⟩
  rw [List.getElem?_append_right hn] at h
  rcases Nat.lt_or_ge (i - front.length - news.length) back.length with hl | hl
  · rw [List.getElem?_append_left hl] at h
    exact absurd (List.mem_of_getElem? h) hb
  · rw [List.getElem?_append_right hl] at h
    exact .inr ⟨List.mem_of_getElem? h, by rw [List.length_append]; omega⟩

end Positions

namespace Message

/-- What it takes to append the instruction: the message is legacy, the table permits what is asked
for, and neither the accounts nor the size pass their limits. -/
structure Accepts (m : Message) (ix : Instruction) : Prop where
  legacy : m.version = .legacy
  allows : m.Allows ix
  accounts_le : m.keys.length + (firstSeen (m.newReferences ix)).length ≤ maxAccounts
  readonly_le : m.header.readonlyUnsigned.toNat + (m.newGroup ix false).length ≤ 255
  size_le : (m.appended ix).packetSize ≤ maxPacket

variable {m m' : Message} {ix : Instruction}

theorem append_eq_ok_iff : m.append ix = .ok m' ↔ m.Accepts ix ∧ m' = m.appended ix := by
  rcases hv : m.version with _ | _
  · by_cases ha : m.Allows ix
    · rw [append_eq hv ha]
      split
      · rename_i h
        simp only [reduceCtorEq, false_iff, not_and]
        intro hacc
        have hk := hacc.accounts_le
        have hr := hacc.readonly_le
        omega
      · rename_i h
        rcases hsize : (m.appended ix).sizeInPacket with f | n
        · simp only [Except.map, reduceCtorEq, false_iff, not_and]
          intro hacc
          rw [sizeInPacket_eq_ok_iff.2 ⟨hacc.size_le, rfl⟩] at hsize
          cases hsize
        · have hle := (sizeInPacket_eq_ok_iff.1 hsize).1
          simp only [Except.map, Except.ok.injEq]
          constructor
          · rintro rfl
            exact ⟨⟨hv, ha, by omega, by omega, hle⟩, rfl⟩
          · exact fun h => h.2.symm
    · obtain ⟨f, hf, -⟩ := append_of_not_allows hv ha
      rw [hf]
      simp only [reduceCtorEq, false_iff, not_and]
      exact fun hacc => absurd hacc.allows ha
  · have hnot : m.append ix = .error .notLegacy := by
      unfold append joined
      rw [hv]
    rw [hnot]
    simp only [reduceCtorEq, false_iff, not_and]
    intro hacc
    have hleg := hacc.legacy
    rw [hv] at hleg
    cases hleg

section Appended

theorem length_newGroups (m : Message) (ix : Instruction) :
    (m.newGroup ix true).length + (m.newGroup ix false).length =
      (firstSeen (m.newReferences ix)).length := by
  have h := List.length_eq_length_filter_add (l := firstSeen (m.newReferences ix))
    fun a => decide (writes (m.newReferences ix) a = true)
  rw [h, newGroup, newGroup]
  congr 2
  refine List.filter_congr fun a _ => ?_
  rcases writes (m.newReferences ix) a with _ | _ <;> rfl

theorem mem_newGroup {a : Address} {writable : Bool} :
    a ∈ m.newGroup ix writable ↔ (a ∉ m.keys ∧ ∃ r ∈ ix.references, r.address = a) ∧
      writes ix.references a = writable := by
  rw [newGroup, List.mem_filter, decide_eq_true_eq, newReferences, mem_firstSeen_unseen]
  refine and_congr_right fun h => ?_
  rw [writes_unseen h.1]

variable (m ix) in
/-- Where an index leads after the instruction is appended. -/
def moved (i : Nat) : Nat :=
  shifted m.insertionPoint (m.newGroup ix true).length i

theorem length_take_insertionPoint : (m.keys.take m.insertionPoint).length = m.insertionPoint := by
  rw [List.length_take, insertionPoint]
  omega

theorem length_keys_appended (m : Message) (ix : Instruction) : (m.appended ix).keys.length =
    m.keys.length + (m.newGroup ix true).length + (m.newGroup ix false).length := by
  change (m.keys.take m.insertionPoint ++ m.newGroup ix true ++ m.keys.drop m.insertionPoint ++
    m.newGroup ix false).length = _
  have h := congrArg List.length (List.take_append_drop m.insertionPoint m.keys)
  rw [List.length_append] at h
  simp only [List.length_append]
  omega

/-- The address at an index stays the same. -/
theorem getElem?_moved {i : Nat} (hi : i < m.keys.length) :
    (m.appended ix).keys[m.moved ix i]? = m.keys[i]? := by
  have h := getElem?_shifted (m.keys.take m.insertionPoint) (m.newGroup ix true)
    (m.keys.drop m.insertionPoint) (m.newGroup ix false) (i := i)
  rw [List.take_append_drop, length_take_insertionPoint] at h
  exact h hi

theorem mem_keys_appended {a : Address} :
    a ∈ (m.appended ix).keys ↔ a ∈ m.keys ∨ ∃ r ∈ ix.references, r.address = a := by
  have hmem : a ∈ (m.appended ix).keys ↔
      a ∈ m.keys ∨ a ∈ m.newGroup ix true ∨ a ∈ m.newGroup ix false := by
    change a ∈ m.keys.take m.insertionPoint ++ m.newGroup ix true ++
      m.keys.drop m.insertionPoint ++ m.newGroup ix false ↔ _
    have h := List.mem_append (a := a) (s := m.keys.take m.insertionPoint)
      (t := m.keys.drop m.insertionPoint)
    rw [List.take_append_drop] at h
    simp only [List.mem_append, h]
    tauto
  rw [hmem, mem_newGroup, mem_newGroup]
  by_cases ha : a ∈ m.keys
  · simp [ha]
  · rcases writes ix.references a with _ | _ <;> simp [ha]

/-- An address that was not in the table stands at the place of its group. -/
theorem newGroup_of_getElem? {i : Nat} {a : Address} (h : (m.appended ix).keys[i]? = some a)
    (ha : a ∉ m.keys) :
    (a ∈ m.newGroup ix true ∧ m.insertionPoint ≤ i ∧
        i < m.insertionPoint + (m.newGroup ix true).length) ∨
      (a ∈ m.newGroup ix false ∧ m.keys.length + (m.newGroup ix true).length ≤ i) := by
  have hfront : a ∉ m.keys.take m.insertionPoint := fun hmem => ha (List.mem_of_mem_take hmem)
  have hback : a ∉ m.keys.drop m.insertionPoint := fun hmem => ha (List.mem_of_mem_drop hmem)
  have hplace := mem_news_of_getElem? (i := i) h hfront hback
  rwa [List.take_append_drop, length_take_insertionPoint] at hplace

end Appended

section Accepted

variable (hc : m.Consistent) (ha : m.Accepts ix)

include hc in
theorem insertionPoint_add_readonly :
    m.insertionPoint + m.header.readonlyUnsigned.toNat = m.keys.length := by
  have hle := hc.readonlyUnsigned_le
  rw [insertionPoint]
  omega

include hc in
theorem required_le_insertionPoint : m.required ≤ m.insertionPoint := by
  have hreq := hc.required_le
  have hle := hc.readonlyUnsigned_le
  rw [insertionPoint]
  omega

include ha in
theorem length_keys_appended_le : (m.appended ix).keys.length ≤ maxAccounts := by
  have hle := ha.accounts_le
  have hnew := length_newGroups m ix
  rw [length_keys_appended]
  omega

include ha in
theorem readonlyUnsigned_appended : (m.appended ix).header.readonlyUnsigned.toNat =
    m.header.readonlyUnsigned.toNat + (m.newGroup ix false).length := by
  have hle := ha.readonly_le
  change (m.header.readonlyUnsigned + (m.newGroup ix false).length.toUInt8).toNat = _
  rw [UInt8.toNat_add, toNat_toUInt8 (by omega), Nat.mod_eq_of_lt (by omega)]

include hc ha

/-- The accounts that sign stay the first, and of the others those that may be written are the ones
before the last group. -/
theorem isWritable_appended {i : Nat} (hi : i < (m.appended ix).keys.length) :
    (m.appended ix).isWritable (.ofNat i) =
      decide (i + m.header.readonlySigned.toNat < m.required ∨
        m.required ≤ i ∧ i < m.insertionPoint + (m.newGroup ix true).length) := by
  have hlen := length_keys_appended m ix
  have hle := length_keys_appended_le ha
  have hro := readonlyUnsigned_appended ha
  have hpoint := insertionPoint_add_readonly hc
  rw [maxAccounts] at hle
  have hrs : (m.appended ix).header.readonlySigned.toNat ≤ (m.appended ix).required :=
    hc.readonlySigned_le
  rw [isWritable_ofNat (by omega) hrs (by omega) hi]
  change decide (i + m.header.readonlySigned.toNat < m.required ∨ m.required ≤ i ∧ _) = _
  exact decide_eq_decide.2 (by omega)

theorem isSigner_moved {i : Nat} (hi : i < m.keys.length) :
    (m.appended ix).isSigner (.ofNat (m.moved ix i)) = m.isSigner (.ofNat i) := by
  have hlen := length_keys_appended m ix
  have hle := length_keys_appended_le ha
  have hreq := required_le_insertionPoint hc
  rw [maxAccounts] at hle
  have hmoved : m.moved ix i < m.required ↔ i < m.required := by
    unfold moved shifted
    split <;> omega
  have hlt : m.moved ix i < 2 ^ 64 := by
    unfold moved shifted
    split <;> omega
  rw [isSigner_ofNat hlt, isSigner_ofNat (by omega)]
  exact decide_eq_decide.2 hmoved

theorem isWritable_moved {i : Nat} (hi : i < m.keys.length) :
    (m.appended ix).isWritable (.ofNat (m.moved ix i)) = m.isWritable (.ofNat i) := by
  have hlen := length_keys_appended m ix
  have hle := length_keys_appended_le ha
  have hreq := required_le_insertionPoint hc
  have hpoint := insertionPoint_add_readonly hc
  have hrs := hc.readonlySigned_le
  rw [maxAccounts] at hle
  have hlt : m.moved ix i < (m.appended ix).keys.length := by
    unfold moved shifted
    split <;> omega
  rw [isWritable_appended hc ha hlt, isWritable_ofNat (by omega) hrs (by omega) hi]
  unfold moved shifted
  split
  · exact decide_eq_decide.2 (by omega)
  · exact decide_eq_decide.2 (by omega)

theorem grants_moved {i : Nat} (hi : i < m.keys.length) (a : AccountMeta) :
    (m.appended ix).grants (m.moved ix i) a = m.grants i a := by
  simp only [grants, isSigner_moved hc ha hi, isWritable_moved hc ha hi]

/-- A new address does not sign, and is written exactly if that is asked for. -/
theorem permissions_newcomer {i : Nat} {a : Address} (h : (m.appended ix).keys[i]? = some a)
    (hnew : a ∉ m.keys) :
    (m.appended ix).isSigner (.ofNat i) = false ∧
      (m.appended ix).isWritable (.ofNat i) = writes ix.references a := by
  have hlt : i < (m.appended ix).keys.length := (List.getElem?_eq_some_iff.1 h).1
  have hle := length_keys_appended_le ha
  have hreq := required_le_insertionPoint hc
  have hpoint := insertionPoint_add_readonly hc
  rw [maxAccounts] at hle
  rw [isSigner_ofNat (by omega), isWritable_appended hc ha hlt]
  change decide (i < m.required) = false ∧ _
  rcases newGroup_of_getElem? h hnew with ⟨hmem, hge, hlt⟩ | ⟨hmem, hge⟩
  · rw [(mem_newGroup.1 hmem).2]
    exact ⟨decide_eq_false (by omega), decide_eq_true (by omega)⟩
  · rw [(mem_newGroup.1 hmem).2]
    exact ⟨decide_eq_false (by omega), decide_eq_false (by omega)⟩

end Accepted

/-- The index `j` of `m'` stands for the account that `i` stands for in `m`, with the same
permissions. -/
structure SameAccount (m m' : Message) (i j : UInt8) : Prop where
  key : ∃ a, m.keys[i.toNat]? = some a ∧ m'.keys[j.toNat]? = some a
  signer_eq : m'.isSigner (.ofNat j.toNat) = m.isSigner (.ofNat i.toNat)
  writable_eq : m'.isWritable (.ofNat j.toNat) = m.isWritable (.ofNat i.toNat)

/-- The instruction `d` of `m'` calls what `c` calls in `m`. -/
structure SameCall (m m' : Message) (c d : CompiledInstruction) : Prop where
  program : m.SameAccount m' c.program d.program
  accounts : List.Forall₂ (m.SameAccount m') c.accounts d.accounts
  data_eq : d.data = c.data

/-- What a message has to do with the one that an instruction was appended to. The instructions it
had call what they called, the new one stands behind them and has the permissions it asks for, and
an address that was not in the table gets no more than these. -/
structure Extends (m m' : Message) (ix : Instruction) : Prop where
  version_eq : m'.version = m.version
  required_eq : m'.required = m.required
  readonlySigned_eq : m'.header.readonlySigned = m.header.readonlySigned
  recentHash_eq : m'.recentHash = m.recentHash
  instructions : ∃ cs c, m'.instructions = cs ++ [c] ∧
    List.Forall₂ (m.SameCall m') m.instructions cs ∧ m'.Resolves c ix ∧
    List.Forall₂ (fun i a => m'.grants i.toNat a = true) c.accounts ix.accounts
  newcomers : ∀ (i : Nat) (hi : i < m'.keys.length), m'.keys[i] ∉ m.keys →
    m'.isSigner (.ofNat i) = false ∧ (m'.isWritable (.ofNat i) = true ↔
      ∃ a ∈ ix.accounts, a.address = m'.keys[i] ∧ a.writable = true)
  consistent : m'.Consistent
  keys_le : m'.keys.length ≤ maxAccounts

theorem SameAccount.lt {i j : UInt8} (h : m.SameAccount m' i j) : j.toNat < m'.keys.length := by
  obtain ⟨a, -, hj⟩ := h.key
  exact (List.getElem?_eq_some_iff.1 hj).1

theorem SameCall.account_lt {c d : CompiledInstruction} (h : m.SameCall m' c d) :
    ∀ j ∈ d.accounts, j.toNat < m'.keys.length :=
  ((List.forall₂_and_left _ _).1 (h.accounts.flip.imp fun _ _ h => ⟨h.lt, h⟩)).1

theorem Resolves.program_lt {c : CompiledInstruction} (h : m.Resolves c ix) :
    c.program.toNat < m.keys.length :=
  (List.getElem?_eq_some_iff.1 h.program).1

theorem Resolves.account_lt {c : CompiledInstruction} (h : m.Resolves c ix) :
    ∀ i ∈ c.accounts, i.toNat < m.keys.length := by
  intro i hi
  have hmem := List.mem_map_of_mem (f := fun i : UInt8 => m.keys[i.toNat]?) hi
  rw [h.accounts] at hmem
  obtain ⟨a, -, hkey⟩ := List.mem_map.1 hmem
  exact (List.getElem?_eq_some_iff.1 hkey.symm).1

theorem Consistent.accountCount_eq (h : m.Consistent) (hv : m.version = .legacy) :
    m.accountCount = m.keys.length := by
  rw [accountCount, (h.legacy hv).1]
  rfl

section Extended

variable (hc : m.Consistent) (ha : m.Accepts ix)

include ha in
theorem toNat_shiftIndex_moved {i : UInt8} (hi : i.toNat < m.keys.length) :
    (shiftIndex m.insertionPoint (m.newGroup ix true).length i).toNat = m.moved ix i.toNat := by
  have hlen := length_keys_appended m ix
  have hle := length_keys_appended_le ha
  rw [maxAccounts] at hle
  exact toNat_shiftIndex (by omega)

include ha in
theorem resolves_appended : (m.appended ix).Resolves (ix.indexed (m.appended ix).keys) ix := by
  refine resolves_indexed (length_keys_appended_le ha) ?_ fun r hr => ?_
  · exact mem_keys_appended.2 (.inr ⟨_, ix.program_mem_references, rfl⟩)
  · exact mem_keys_appended.2 (.inr ⟨r, List.mem_append_left _ hr, rfl⟩)

include hc ha

theorem sameAccount_moved {i : UInt8} (hi : i.toNat < m.keys.length) :
    m.SameAccount (m.appended ix) i
      (shiftIndex m.insertionPoint (m.newGroup ix true).length i) := by
  refine ⟨⟨m.keys[i.toNat], List.getElem?_eq_getElem hi, ?_⟩, ?_, ?_⟩
  · rw [toNat_shiftIndex_moved ha hi, getElem?_moved hi, List.getElem?_eq_getElem hi]
  · rw [toNat_shiftIndex_moved ha hi, isSigner_moved hc ha hi]
  · rw [toNat_shiftIndex_moved ha hi, isWritable_moved hc ha hi]

theorem sameCall_shifted {c : CompiledInstruction} (hmem : c ∈ m.instructions) :
    m.SameCall (m.appended ix) c
      (shiftInstruction m.insertionPoint (m.newGroup ix true).length c) := by
  have hcount := hc.accountCount_eq ha.legacy
  have hprog := hc.program_lt c hmem
  have haccts := hc.account_lt c hmem
  rw [hcount] at hprog haccts
  refine ⟨sameAccount_moved hc ha hprog, ?_, rfl⟩
  refine List.forall₂_map_right_iff.2 (List.forall₂_same.2 fun i hi => ?_)
  exact sameAccount_moved hc ha (haccts i hi)

/-- The permissions at the index of a reference: those it had, or those asked for. -/
theorem grants_appended {r : AccountMeta} (hr : r ∈ ix.accounts) :
    (m.appended ix).grants ((m.appended ix).keys.idxOf r.address) r = true := by
  have hallows := ha.allows r hr
  rw [permits, indexOf?_eq] at hallows
  by_cases hmem : r.address ∈ m.keys
  · have hnot : r.address ∉ m.newGroup ix true := fun h => (mem_newGroup.1 h).1.1 hmem
    have hidx : (m.appended ix).keys.idxOf r.address =
        m.moved ix (m.keys.idxOf r.address) := by
      have h := idxOf_shifted (m.keys.take m.insertionPoint) (m.newGroup ix true)
        (m.keys.drop m.insertionPoint) (m.newGroup ix false) (by rwa [List.take_append_drop]) hnot
      rw [List.take_append_drop, length_take_insertionPoint] at h
      exact h
    rw [hidx, grants_moved hc ha (List.idxOf_lt_length_of_mem hmem)]
    rwa [if_pos hmem] at hallows
  · have hsigner : r.signer = false := by
      rw [if_neg hmem] at hallows
      simpa using hallows
    have hin : r.address ∈ (m.appended ix).keys :=
      mem_keys_appended.2 (.inr ⟨r, List.mem_append_left _ hr, rfl⟩)
    have hlt := List.idxOf_lt_length_of_mem hin
    have hget : (m.appended ix).keys[(m.appended ix).keys.idxOf r.address]? = some r.address := by
      rw [List.getElem?_eq_getElem hlt, List.getElem_idxOf hlt]
    obtain ⟨-, hwrites⟩ := permissions_newcomer hc ha hget hmem
    rcases hw : r.writable with _ | _
    · simp [grants, hsigner, hw]
    · rw [Instruction.writes_references.2 ⟨r, hr, rfl, hw⟩] at hwrites
      simp [grants, hsigner, hwrites]

theorem consistent_appended : (m.appended ix).Consistent := by
  have hlen := length_keys_appended m ix
  have hro := readonlyUnsigned_appended ha
  have hreq := hc.required_le
  have hle := hc.readonlyUnsigned_le
  obtain ⟨hlookups, hfew⟩ := hc.legacy ha.legacy
  have hcount : (m.appended ix).accountCount = (m.appended ix).keys.length := by
    change _ + (m.lookups.flatMap _).length = _
    rw [hlookups]
    rfl
  have hcalls : ∀ c ∈ (m.appended ix).instructions,
      c.program.toNat < (m.appended ix).keys.length ∧
        ∀ i ∈ c.accounts, i.toNat < (m.appended ix).keys.length := by
    intro c hmem
    rcases List.mem_append.1 hmem with hmem | hmem
    · obtain ⟨c, hold, rfl⟩ := List.mem_map.1 hmem
      have hsame := sameCall_shifted hc ha hold
      exact ⟨hsame.program.lt, hsame.account_lt⟩
    · rw [List.mem_singleton.1 hmem]
      exact ⟨(resolves_appended ha).program_lt, (resolves_appended ha).account_lt⟩
  refine ⟨?_, hc.readonlySigned_le, ?_, fun c hmem => ?_, fun c hmem => ?_,
    fun _ => ⟨hlookups, hfew⟩⟩
  · change m.required ≤ _
    omega
  · change _ ≤ _ - m.required
    omega
  · rw [hcount]
    exact (hcalls c hmem).1
  · rw [hcount]
    exact (hcalls c hmem).2

theorem granted_appended : List.Forall₂ (fun i a => (m.appended ix).grants i.toNat a = true)
    (ix.indexed (m.appended ix).keys).accounts ix.accounts := by
  refine List.forall₂_map_left_iff.2 (List.forall₂_same.2 fun r hr => ?_)
  have hmem : r.address ∈ (m.appended ix).keys :=
    mem_keys_appended.2 (.inr ⟨r, List.mem_append_left _ hr, rfl⟩)
  rw [toNat_toUInt8 (Nat.lt_of_lt_of_le (List.idxOf_lt_length_of_mem hmem)
    (length_keys_appended_le ha))]
  exact grants_appended hc ha hr

theorem extends_appended : m.Extends (m.appended ix) ix := by
  refine ⟨rfl, rfl, rfl, rfl, ⟨_, ix.indexed (m.appended ix).keys, rfl, ?_, resolves_appended ha,
    granted_appended hc ha⟩, fun i hi hnew => ?_, consistent_appended hc ha,
    length_keys_appended_le ha⟩
  · exact List.forall₂_map_right_iff.2 (List.forall₂_same.2 fun c => sameCall_shifted hc ha)
  · obtain ⟨hsigner, hwrites⟩ := permissions_newcomer hc ha (List.getElem?_eq_getElem hi) hnew
    rw [hwrites, Instruction.writes_references]
    exact ⟨hsigner, Iff.rfl⟩

end Extended

/-- Appending an instruction to a message that was read leaves every instruction calling what it
called, gives the new one what it asks for and its new addresses no more, and the result could again
be read. -/
theorem extends_of_append {r r' : Reader} (hread : decode r = .ok (m, r'))
    (happend : m.append ix = .ok m') : m.Extends m' ix := by
  obtain ⟨ha, rfl⟩ := append_eq_ok_iff.1 happend
  exact extends_appended ((decode_reads r m r').1 hread).1.1 ha

/-- A table that holds an address twice, the second time where it may not be written. -/
def tangled : Message where
  header := { required := 1, readonlyUnsigned := 2 }
  keys := [.zero 32, .padded 32 [1], .padded 32 [2], .padded 32 [1]]
  instructions := [{ program := 2, accounts := [3, 0, 1], data := [7] }]

/-- A call that writes the address that is there twice and one that is not there. -/
def joining : Instruction where
  program := .padded 32 [2]
  accounts := [⟨.padded 32 [4], false, false⟩, ⟨.padded 32 [1], false, true⟩,
    ⟨.padded 32 [5], false, true⟩]

def tangledJoined : Message where
  header := { required := 1, readonlyUnsigned := 3 }
  keys := [.zero 32, .padded 32 [1], .padded 32 [5], .padded 32 [2], .padded 32 [1],
    .padded 32 [4]]
  instructions := [{ program := 3, accounts := [4, 0, 1], data := [7] },
    { program := 3, accounts := [5, 1, 2], data := [] }]

set_option maxRecDepth 4000 in
theorem extends_tangled :
    decode (.ofBytes tangled.wire) = .ok (tangled, ⟨tangled.wire.length, []⟩) ∧
      tangled.append joining = .ok tangledJoined ∧ tangled.Extends tangledJoined joining := by
  have hread : decode (.ofBytes tangled.wire) = .ok (tangled, ⟨tangled.wire.length, []⟩) := rfl
  have happend : tangled.append joining = .ok tangledJoined := rfl
  exact ⟨hread, happend, extends_of_append hread happend⟩

end Message

end OfflineTx
