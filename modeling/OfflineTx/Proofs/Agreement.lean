import OfflineTx.Proofs.Extension
import OfflineTx.Proofs.Growth

/-!
# Appending agrees with compiling

References that ask no more of an address than was asked before leave the groups of the table as
they are, and their new addresses come at the ends of the last two (`Within.tableGroup_append`).
This is what appending does to the table, the header and the indices of a compiled message
(`appended_laidOut`), so it gives what compiling gives with the instruction at the end of the list
(`append_eq_compile`), and so do instructions that are appended one at a time
(`foldlM_append_eq_ok_iff`).
-/

namespace OfflineTx

/-- The further references ask no more of an address than was asked before, and of an address not
seen before not to sign. -/
structure Within (refs more : List AccountMeta) : Prop where
  signs_of : ∀ r ∈ more, r.signer = true → signs refs r.address = true
  writes_of : ∀ r ∈ more, r.address ∈ firstSeen refs → r.writable = true →
    writes refs r.address = true

section Within

variable {refs more : List AccountMeta} {a feePayer : Address}

theorem Within.signs_append (h : Within refs more) (a : Address) :
    signs (refs ++ more) a = signs refs a := by
  rw [OfflineTx.signs_append, Bool.or_eq_left_iff_imp]
  intro hs
  obtain ⟨r, hr, hra⟩ := List.any_eq_true.1 hs
  simp only [Bool.and_eq_true, beq_iff_eq] at hra
  obtain ⟨rfl, hsig⟩ := hra
  exact h.signs_of r hr hsig

theorem Within.writes_append (h : Within refs more) (ha : a ∈ firstSeen refs) :
    writes (refs ++ more) a = writes refs a := by
  rw [OfflineTx.writes_append, Bool.or_eq_left_iff_imp]
  intro hs
  obtain ⟨r, hr, hra⟩ := List.any_eq_true.1 hs
  simp only [Bool.and_eq_true, beq_iff_eq] at hra
  obtain ⟨rfl, hwr⟩ := hra
  exact h.writes_of r hr ha hwr

theorem writes_append_of_not_mem (ha : a ∉ firstSeen refs) :
    writes (refs ++ more) a = writes (unseen (firstSeen refs) more) a := by
  rw [writes_append, writes_of_not_mem ha, Bool.false_or, writes_unseen ha]

/-- New addresses do not sign and come behind those of their group. -/
theorem Within.tableGroup_append (h : Within refs more) (hp : feePayer ∈ firstSeen refs)
    (signer writable : Bool) :
    tableGroup feePayer (refs ++ more) signer writable =
      tableGroup feePayer refs signer writable ++
        if signer then []
        else (firstSeen (unseen (firstSeen refs) more)).filter fun a =>
          writes (unseen (firstSeen refs) more) a = writable := by
  rw [tableGroup, firstSeen_append, List.filter_append]
  congr 1
  · refine List.filter_congr fun a ha => ?_
    rw [h.signs_append, h.writes_append ha]
  · have hnew : ∀ a ∈ firstSeen (unseen (firstSeen refs) more),
        decide (a ≠ feePayer ∧ signs (refs ++ more) a = signer ∧
          writes (refs ++ more) a = writable) =
        (!signer && decide (writes (unseen (firstSeen refs) more) a = writable)) := by
      intro a ha
      have hnot := (mem_firstSeen_unseen.1 ha).1
      have hne : a ≠ feePayer := by
        rintro rfl
        exact hnot hp
      rw [h.signs_append, signs_of_not_mem hnot, writes_append_of_not_mem hnot]
      rcases signer with _ | _ <;> simp [hne]
    change (firstSeen (unseen (firstSeen refs) more)).filter _ = _
    rw [List.filter_congr hnew]
    rcases signer with _ | _
    · rfl
    · simp

end Within

namespace Message

variable {feePayer a : Address} {recentHash : Hash} {ixs jxs : List Instruction}
  {ix : Instruction} {m m' : Message}

theorem feePayer_mem_firstSeen : feePayer ∈ firstSeen (references feePayer ixs) := by
  rw [firstSeen_references]
  exact List.mem_cons_self

theorem mem_keys_laidOut {version : Version} :
    a ∈ (laidOut version feePayer recentHash ixs).keys ↔
      a ∈ firstSeen (references feePayer ixs) := by
  rw [laidOut, mem_table]
  constructor
  · rintro (rfl | h)
    · exact feePayer_mem_firstSeen
    · exact h
  · exact .inr

theorem newReferences_laidOut {version : Version} :
    (laidOut version feePayer recentHash ixs).newReferences ix =
      unseen (firstSeen (references feePayer ixs)) ix.references := by
  simp only [newReferences, unseen, mem_keys_laidOut]

/-- The table up to its last group, which is neither signed nor written. -/
def writableFront (feePayer : Address) (refs : List AccountMeta) : List Address :=
  feePayer :: (tableGroup feePayer refs true true ++ tableGroup feePayer refs true false ++
    tableGroup feePayer refs false true)

theorem table_eq_append (feePayer : Address) (refs : List AccountMeta) :
    table feePayer refs = writableFront feePayer refs ++ tableGroup feePayer refs false false :=
  rfl

section Shift

/-- Addresses put in before the last group shift just the indices of that group. -/
theorem shiftIndex_idxOf {front back news rest : List Address}
    (hlen : (front ++ back).length ≤ maxAccounts) (ha : a ∈ front ++ back) (hnews : a ∉ news) :
    shiftIndex front.length news.length ((front ++ back).idxOf a).toUInt8 =
      ((front ++ news ++ back ++ rest).idxOf a).toUInt8 := by
  have hlt := Nat.lt_of_lt_of_le (List.idxOf_lt_length_of_mem ha) hlen
  rw [idxOf_shifted _ _ _ _ ha hnews, shiftIndex, shifted, toNat_toUInt8 hlt]
  split
  · exact (UInt8.ofNat_add _ _).symm
  · rfl

theorem shiftInstruction_indexed {front back news rest : List Address}
    (hlen : (front ++ back).length ≤ maxAccounts)
    (hix : ∀ r ∈ ix.references, r.address ∈ front ++ back ∧ r.address ∉ news) :
    shiftInstruction front.length news.length (ix.indexed (front ++ back)) =
      ix.indexed (front ++ news ++ back ++ rest) := by
  obtain ⟨hprog, hnew⟩ := hix _ ix.program_mem_references
  simp only [shiftInstruction, Instruction.indexed, List.map_map]
  congr 1
  · exact shiftIndex_idxOf hlen hprog hnew
  · refine List.map_congr_left fun r hr => ?_
    obtain ⟨hmem, hnew⟩ := hix r (List.mem_append_left _ hr)
    exact shiftIndex_idxOf hlen hmem hnew

end Shift

theorem references_snoc :
    references feePayer (ixs ++ [ix]) = references feePayer ixs ++ ix.references := by
  rw [references_append, List.flatMap_singleton]

section Compiled

variable (hs : signerTotal feePayer (references feePayer ixs) ≤ maxSigners)
  (hn : (firstSeen (references feePayer ixs)).length ≤ maxAccounts)
include hs hn

theorem readonlyUnsigned_laidOut (recentHash : Hash) :
    (laidOut .legacy feePayer recentHash ixs).header.readonlyUnsigned.toNat =
      (tableGroup feePayer (references feePayer ixs) false false).length :=
  (laidOut_grouped hs hn).readonlyUnsigned_eq

variable (h : (laidOut .legacy feePayer recentHash ixs).Allows ix)
include h

theorem within_of_allows : Within (references feePayer ixs) ix.references := by
  have hmem : ∀ r ∈ ix.references, r.address ∈ firstSeen (references feePayer ixs) →
      (r.signer = true → signs (references feePayer ixs) r.address = true) ∧
        (r.writable = true → writes (references feePayer ixs) r.address = true) := by
    intro r hr hseen
    have hp := h.references r hr
    rw [← mem_keys_laidOut] at hseen
    have hlt := List.idxOf_lt_length_of_mem hseen
    obtain ⟨hsig, hwr⟩ := laidOut_permissions hs hn _ hlt
    rw [List.getElem_idxOf hlt] at hsig hwr
    rw [permits, indexOf?_eq, if_pos hseen] at hp
    simp only [hsig, hwr] at hp
    refine ⟨fun hrs => ?_, fun hrw => ?_⟩
    · rw [hrs] at hp
      exact (Bool.and_eq_true_iff.1 hp).1
    · rw [hrw] at hp
      exact (Bool.and_eq_true_iff.1 hp).2
  refine ⟨fun r hr hrs => ?_, fun r hr hseen => (hmem r hr hseen).2⟩
  by_cases hseen : r.address ∈ firstSeen (references feePayer ixs)
  · exact (hmem r hr hseen).1 hrs
  · have hp := h.references r hr
    rw [← mem_keys_laidOut] at hseen
    rw [permits, indexOf?_eq, if_neg hseen] at hp
    simp only [hrs] at hp
    cases hp

theorem tableGroup_signer_snoc (writable : Bool) :
    tableGroup feePayer (references feePayer (ixs ++ [ix])) true writable =
      tableGroup feePayer (references feePayer ixs) true writable := by
  rw [references_snoc, (within_of_allows hs hn h).tableGroup_append feePayer_mem_firstSeen,
    if_pos rfl, List.append_nil]

theorem tableGroup_other_snoc (writable : Bool) :
    tableGroup feePayer (references feePayer (ixs ++ [ix])) false writable =
      tableGroup feePayer (references feePayer ixs) false writable ++
        (laidOut .legacy feePayer recentHash ixs).newGroup ix writable := by
  rw [references_snoc, (within_of_allows hs hn h).tableGroup_append feePayer_mem_firstSeen,
    if_neg Bool.false_ne_true, newGroup, newReferences_laidOut]

theorem signerTotal_snoc : signerTotal feePayer (references feePayer (ixs ++ [ix])) =
    signerTotal feePayer (references feePayer ixs) := by
  simp only [signerTotal, tableGroup_signer_snoc hs hn h]

theorem table_snoc : table feePayer (references feePayer (ixs ++ [ix])) =
    writableFront feePayer (references feePayer ixs) ++
      (laidOut .legacy feePayer recentHash ixs).newGroup ix true ++
      tableGroup feePayer (references feePayer ixs) false false ++
      (laidOut .legacy feePayer recentHash ixs).newGroup ix false := by
  simp only [table, writableFront, tableGroup_signer_snoc hs hn h, tableGroup_other_snoc hs hn h,
    List.append_assoc, List.cons_append]

theorem header_extend_laidOut (writable : List Address) :
    ((laidOut .legacy feePayer recentHash ixs).extend writable
      ((laidOut .legacy feePayer recentHash ixs).newGroup ix false)).header =
    (laidOut .legacy feePayer recentHash (ixs ++ [ix])).header := by
  have hsum : (tableGroup feePayer (references feePayer ixs) false false).length.toUInt8 +
      ((laidOut .legacy feePayer recentHash ixs).newGroup ix false).length.toUInt8 =
      (tableGroup feePayer (references feePayer (ixs ++ [ix])) false false).length.toUInt8 := by
    rw [tableGroup_other_snoc hs hn h, List.length_append]
    exact (UInt8.ofNat_add _ _).symm
  change Header.mk _ _ (_ + _) = Header.mk _ _ _
  rw [signerTotal_snoc hs hn h, tableGroup_signer_snoc hs hn h, ← hsum]
  rfl

theorem instructions_extend_laidOut (readonly : List Address) :
    ((laidOut .legacy feePayer recentHash ixs).extend
      ((laidOut .legacy feePayer recentHash ixs).newGroup ix true) readonly).instructions =
    ixs.map (Instruction.indexed (table feePayer (references feePayer (ixs ++ [ix])))) := by
  have hpoint := insertionPoint_eq (table_eq_append feePayer (references feePayer ixs))
    (readonlyUnsigned_laidOut hs hn recentHash)
  have hlen : (table feePayer (references feePayer ixs)).length ≤ maxAccounts := by
    rwa [length_table_references]
  change (ixs.map (Instruction.indexed (table feePayer (references feePayer ixs)))).map
    (shiftInstruction (laidOut .legacy feePayer recentHash ixs).insertionPoint _) = _
  rw [hpoint, List.map_map, table_snoc hs hn h]
  refine List.map_congr_left fun jx hjx => shiftInstruction_indexed hlen fun r hr => ?_
  have hmem : r.address ∈ firstSeen (references feePayer ixs) := mem_firstSeen_references hjx hr
  refine ⟨mem_table.2 (.inr hmem), fun hnew => ?_⟩
  rw [newGroup, newReferences_laidOut] at hnew
  exact (mem_firstSeen_unseen.1 (List.mem_filter.1 hnew).1).1 hmem

theorem appended_laidOut : (laidOut .legacy feePayer recentHash ixs).appended ix =
    laidOut .legacy feePayer recentHash (ixs ++ [ix]) := by
  have hback := readonlyUnsigned_laidOut hs hn recentHash
  have hkeys := keys_extend (table_eq_append feePayer (references feePayer ixs)) hback
    ((laidOut .legacy feePayer recentHash ixs).newGroup ix true)
    ((laidOut .legacy feePayer recentHash ixs).newGroup ix false)
  rw [← table_snoc hs hn h] at hkeys
  have hheader := header_extend_laidOut hs hn h
    ((laidOut .legacy feePayer recentHash ixs).newGroup ix true)
  refine Message.ext rfl hheader hkeys rfl ?_ rfl
  simp only [appended, hkeys, instructions_extend_laidOut hs hn h]
  rw [laidOut, List.map_append]
  rfl

end Compiled

theorem append_eq_compile (h : compile .legacy feePayer recentHash ixs = .ok m)
    (ha : m.Allows ix) :
    m.append ix = compile .legacy feePayer recentHash (ixs ++ [ix]) := by
  obtain ⟨hs, hn, rfl, -⟩ := compile_eq_ok_iff.1 h
  have hback := readonlyUnsigned_laidOut hs hn recentHash
  have hkeys : (laidOut .legacy feePayer recentHash ixs).keys.length =
      (firstSeen (references feePayer ixs)).length := length_table_references feePayer ixs
  have hcount : (firstSeen (references feePayer ixs)).length +
      (firstSeen (unseen (firstSeen (references feePayer ixs)) ix.references)).length =
      (firstSeen (references feePayer (ixs ++ [ix]))).length := by
    rw [references_snoc, firstSeen_append, List.length_append]
  have hfull : maxAccounts < (firstSeen (references feePayer (ixs ++ [ix]))).length ∨
      255 < (tableGroup feePayer (references feePayer ixs) false false).length +
        ((laidOut .legacy feePayer recentHash ixs).newGroup ix false).length ↔
      maxAccounts < (firstSeen (references feePayer (ixs ++ [ix]))).length := by
    rw [← List.length_append, ← tableGroup_other_snoc hs hn ha, ← length_table_references, table]
    simp only [List.length_cons, List.length_append, maxAccounts]
    omega
  rw [append_eq rfl ha, hkeys, newReferences_laidOut, hcount, hback, appended_laidOut hs hn ha,
    compile, Compiler.compile_eq (by decide), signerTotal_snoc hs hn ha,
    if_neg (Nat.not_lt_of_le hs)]
  simp only [hfull]

/-- Each instruction asks only for what is permitted by the message that those before it give. -/
def AllowsInTurn : Message → List Instruction → Prop
  | _, [] => True
  | m, ix :: ixs => m.Allows ix ∧ ∀ m', m.append ix = .ok m' → m'.AllowsInTurn ixs

/-- Appending instructions one at a time succeeds exactly if compiling all of them does, and gives
the same message. -/
theorem foldlM_append_eq_ok_iff : ∀ {jxs ixs : List Instruction} {m : Message},
    compile .legacy feePayer recentHash ixs = .ok m → m.AllowsInTurn jxs →
      (jxs.foldlM append m = .ok m' ↔
        compile .legacy feePayer recentHash (ixs ++ jxs) = .ok m')
  | [], ixs, m, h, _ => by
    rw [List.foldlM_nil, List.append_nil, h]
    rfl
  | jx :: jxs, ixs, m, h, ha => by
    obtain ⟨hjx, hjxs⟩ := ha
    have hstep := append_eq_compile h hjx
    rw [List.foldlM_cons, List.append_cons]
    rcases happ : m.append jx with f | next
    · rw [happ] at hstep
      refine ⟨fun hbad => (by cases hbad), fun hall => ?_⟩
      obtain ⟨m₁, hm₁⟩ := compile_prefix hall
      rw [hm₁] at hstep
      cases hstep
    · rw [happ] at hstep
      exact foldlM_append_eq_ok_iff hstep.symm (hjxs next happ)

/-- Appending to a compiled message and compiling with the further instructions agree, as long as
these ask only for what is permitted. An instruction that asks for more is refused. -/
theorem append_agrees_with_compile (h : compile .legacy feePayer recentHash ixs = .ok m) :
    (∀ ix, m.Allows ix →
        m.append ix = compile .legacy feePayer recentHash (ixs ++ [ix])) ∧
      (∀ ix, ¬m.Allows ix → ∃ f, m.append ix = .error f ∧ f.kind = .accountPermission) ∧
      ∀ jxs, m.AllowsInTurn jxs → ∀ m', jxs.foldlM append m = .ok m' ↔
        compile .legacy feePayer recentHash (ixs ++ jxs) = .ok m' := by
  have hv : m.version = .legacy := by
    obtain ⟨-, -, rfl, -⟩ := compile_eq_ok_iff.1 h
    rfl
  refine ⟨fun ix => append_eq_compile h, fun ix => append_of_not_allows hv, ?_⟩
  exact fun jxs ha m' => foldlM_append_eq_ok_iff h ha

/-- A call that reads an account of the table and writes one that is not there. -/
def further : Instruction where
  program := .padded 32 [3]
  accounts := [⟨.padded 32 [2], true, true⟩, ⟨.padded 32 [4], false, true⟩]

/-- A call that a new address would have to sign for. -/
def refused : Instruction where
  program := .padded 32 [3]
  accounts := [⟨.padded 32 [4], true, false⟩]

set_option maxRecDepth 4000 in
theorem append_agrees_with_compile_calls :
    compile .legacy (.zero 32) (.padded 32 [9]) calls =
        .ok (laidOut .legacy (.zero 32) (.padded 32 [9]) calls) ∧
      (laidOut .legacy (.zero 32) (.padded 32 [9]) calls).append further =
        compile .legacy (.zero 32) (.padded 32 [9]) (calls ++ [further]) ∧
      (∃ f, (laidOut .legacy (.zero 32) (.padded 32 [9]) calls).append refused = .error f ∧
        f.kind = .accountPermission) ∧
      ∀ m', [further, further].foldlM append
          (laidOut .legacy (.zero 32) (.padded 32 [9]) calls) = .ok m' ↔
        compile .legacy (.zero 32) (.padded 32 [9]) (calls ++ [further, further]) = .ok m' := by
  have hcalls : compile .legacy (.zero 32) (.padded 32 [9]) calls =
      .ok (laidOut .legacy (.zero 32) (.padded 32 [9]) calls) := rfl
  obtain ⟨hone, hmore, hall⟩ := append_agrees_with_compile hcalls
  refine ⟨hcalls, hone further (by decide), hmore refused (by decide), hall _ ⟨by decide, ?_⟩⟩
  intro m' h
  obtain rfl : laidOut .legacy (.zero 32) (.padded 32 [9]) (calls ++ [further]) = m' :=
    Except.ok.inj (Eq.trans rfl h)
  exact ⟨by decide, fun _ _ => trivial⟩

end Message

end OfflineTx
