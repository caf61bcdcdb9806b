import OfflineTx.Proofs.Agreement

/-!
# Compiling a message again

A message can be spelled out as instructions, in which each account asks for the permissions that
the message grants it (`Message.expanded`). For a compiled message these are the instructions it was
compiled from, with each account asking for all that some reference to its address asks for
(`expanded_laidOut`). The addresses are then first seen in the same order and nothing more is asked
of any of them, so compiling gives the same message again (`compile_expanded`). A message that
instructions were appended to is one that was compiled from all of them, so this holds of it too
(`recompile_of_foldlM_append`).
-/

namespace OfflineTx

section Grant

/-- The account of a reference, with every permission that some reference asks for its address. -/
def grant (refs : List AccountMeta) (r : AccountMeta) : AccountMeta where
  address := r.address
  signer := signs refs r.address
  writable := writes refs r.address

/-- The instruction whose accounts ask for all that is asked for their addresses. -/
def Instruction.granted (refs : List AccountMeta) (ix : Instruction) : Instruction :=
  { ix with accounts := ix.accounts.map (grant refs) }

variable {feePayer a : Address} {refs : List AccountMeta} {ixs : List Instruction}

theorem Instruction.map_address_granted (ix : Instruction) :
    (ix.granted refs).references.map (·.address) = ix.references.map (·.address) := by
  simp only [references, granted, List.map_append, List.map_map]
  rfl

theorem firstSeen_granted : firstSeen (references feePayer (ixs.map (Instruction.granted refs))) =
    firstSeen (references feePayer ixs) := by
  simp only [firstSeen, references, List.map_cons, List.map_flatMap, List.flatMap_map,
    Instruction.map_address_granted]

/-- A permission that accounts get by what is asked for their addresses, and programs do not get for
being called, is asked for an address as before. -/
theorem any_granted (flag : AccountMeta → Bool)
    (hgrant : ∀ r, flag (grant (references feePayer ixs) r) =
      (references feePayer ixs).any fun s => s.address == r.address && flag s)
    (hprogram : ∀ a, flag ⟨a, false, false⟩ = false) :
    ((references feePayer (ixs.map (Instruction.granted (references feePayer ixs)))).any
        fun r => r.address == a && flag r) =
      (references feePayer ixs).any fun r => r.address == a && flag r := by
  rw [Bool.eq_iff_iff]
  constructor
  · intro h
    obtain ⟨r, hr, hflag⟩ := List.any_eq_true.1 h
    simp only [Bool.and_eq_true, beq_iff_eq] at hflag
    obtain ⟨rfl, hflag⟩ := hflag
    -- The payer stands first in both rows, and the accounts carry what the old row asks for.
    rcases List.mem_cons.1 hr with rfl | hr
    · exact List.any_eq_true.2 ⟨_, List.mem_cons_self, by simpa using hflag⟩
    obtain ⟨_, hix, hr⟩ := List.mem_flatMap.1 hr
    obtain ⟨ix, -, rfl⟩ := List.mem_map.1 hix
    rcases List.mem_append.1 hr with hr | hr
    · obtain ⟨s, -, rfl⟩ := List.mem_map.1 hr
      rwa [hgrant] at hflag
    · rw [List.mem_singleton.1 hr, hprogram] at hflag
      cases hflag
  · intro h
    obtain ⟨r, hr, hflag⟩ := List.any_eq_true.1 h
    rcases List.mem_cons.1 hr with rfl | hr
    · exact List.any_eq_true.2 ⟨_, List.mem_cons_self, hflag⟩
    obtain ⟨ix, hix, hr⟩ := List.mem_flatMap.1 hr
    simp only [Bool.and_eq_true, beq_iff_eq] at hflag
    obtain ⟨rfl, hflag⟩ := hflag
    rcases List.mem_append.1 hr with hr | hr
    · refine List.any_eq_true.2 ⟨grant (references feePayer ixs) r, ?_, ?_⟩
      · exact List.mem_cons_of_mem _ (List.mem_flatMap.2 ⟨_, List.mem_map_of_mem hix,
          List.mem_append_left _ (List.mem_map_of_mem hr)⟩)
      · rw [hgrant, h]
        exact Bool.and_eq_true_iff.2 ⟨beq_self_eq_true _, rfl⟩
    · rw [List.mem_singleton.1 hr, hprogram] at hflag
      cases hflag

theorem signs_granted (a : Address) :
    signs (references feePayer (ixs.map (Instruction.granted (references feePayer ixs)))) a =
      signs (references feePayer ixs) a :=
  any_granted (·.signer) (fun _ => rfl) fun _ => rfl

theorem writes_granted (a : Address) :
    writes (references feePayer (ixs.map (Instruction.granted (references feePayer ixs)))) a =
      writes (references feePayer ixs) a :=
  any_granted (·.writable) (fun _ => rfl) fun _ => rfl

theorem tableGroup_granted (signer writable : Bool) :
    tableGroup feePayer
        (references feePayer (ixs.map (Instruction.granted (references feePayer ixs))))
        signer writable =
      tableGroup feePayer (references feePayer ixs) signer writable := by
  simp only [tableGroup, firstSeen_granted, signs_granted, writes_granted]

theorem signerTotal_granted : signerTotal feePayer
      (references feePayer (ixs.map (Instruction.granted (references feePayer ixs)))) =
    signerTotal feePayer (references feePayer ixs) := by
  simp only [signerTotal, tableGroup_granted]

theorem Instruction.indexed_granted (keys : List Address) (ix : Instruction) :
    (ix.granted refs).indexed keys = ix.indexed keys := by
  simp only [indexed, granted, List.map_map]
  rfl

end Grant

namespace Message

/-- The account that an index stands for, with the permissions it has. -/
def accountAt (m : Message) (i : UInt8) : AccountMeta where
  address := m.keys.getD i.toNat (.zero 32)
  signer := m.isSigner (.ofNat i.toNat)
  writable := m.isWritable (.ofNat i.toNat)

/-- An instruction by addresses, which asks for the permissions that its accounts have. -/
def expand (m : Message) (c : CompiledInstruction) : Instruction where
  program := m.keys.getD c.program.toNat (.zero 32)
  accounts := c.accounts.map m.accountAt
  data := c.data

def expanded (m : Message) : List Instruction :=
  m.instructions.map m.expand

variable {version : Version} {feePayer : Address} {recentHash : Hash}
  {ixs jxs : List Instruction} {m m' : Message}

section LaidOut

variable (hs : signerTotal feePayer (references feePayer ixs) ≤ maxSigners)
  (hn : (firstSeen (references feePayer ixs)).length ≤ maxAccounts)
include hs hn

theorem accountAt_laidOut {r : AccountMeta}
    (hr : r.address ∈ table feePayer (references feePayer ixs)) :
    (laidOut version feePayer recentHash ixs).accountAt
        ((table feePayer (references feePayer ixs)).idxOf r.address).toUInt8 =
      grant (references feePayer ixs) r := by
  have hlt := List.idxOf_lt_length_of_mem hr
  have hlen : (table feePayer (references feePayer ixs)).length ≤ maxAccounts := by
    rwa [length_table_references]
  obtain ⟨hsigner, hwritable⟩ := @laidOut_permissions version feePayer recentHash ixs hs hn _ hlt
  simp only [laidOut, List.getElem_idxOf hlt] at hsigner hwritable
  unfold accountAt grant
  rw [List.getD_eq_getElem?_getD, toNat_toUInt8 (Nat.lt_of_lt_of_le hlt hlen)]
  simp only [laidOut, hsigner, hwritable, List.getElem?_eq_getElem hlt, List.getElem_idxOf hlt,
    Option.getD_some]

theorem expanded_laidOut : (laidOut version feePayer recentHash ixs).expanded =
    ixs.map (Instruction.granted (references feePayer ixs)) := by
  have hlen : (table feePayer (references feePayer ixs)).length ≤ maxAccounts := by
    rwa [length_table_references]
  change (ixs.map (Instruction.indexed (table feePayer (references feePayer ixs)))).map _ = _
  rw [List.map_map]
  refine List.map_congr_left fun ix hix => ?_
  have hmem : ∀ r ∈ ix.references, r.address ∈ table feePayer (references feePayer ixs) :=
    fun r hr => mem_table.2 (.inr (mem_firstSeen_references hix hr))
  have hprogram : (table feePayer (references feePayer ixs)).getD
      ((table feePayer (references feePayer ixs)).idxOf ix.program).toUInt8.toNat (.zero 32) =
      ix.program := by
    rw [List.getD_eq_getElem?_getD, getElem?_indexed hlen (hmem _ ix.program_mem_references),
      Option.getD_some]
  simp only [Function.comp_apply, expand, Instruction.indexed, Instruction.granted, List.map_map]
  congr 1
  exact List.map_congr_left fun r hr =>
    accountAt_laidOut hs hn (hmem r (List.mem_append_left _ hr))

end LaidOut

theorem laidOut_granted :
    laidOut version feePayer recentHash
        (ixs.map (Instruction.granted (references feePayer ixs))) =
      laidOut version feePayer recentHash ixs := by
  simp only [laidOut, signerTotal_granted, table, tableGroup_granted, List.map_map]
  congr 1
  exact List.map_congr_left fun ix _ => ix.indexed_granted _

/-- What a compiled message calls is compiled to the same message. -/
theorem compile_expanded (h : compile version feePayer recentHash ixs = .ok m) :
    compile version feePayer recentHash m.expanded = .ok m := by
  obtain ⟨hs, hn, rfl, hsize⟩ := compile_eq_ok_iff.1 h
  rw [expanded_laidOut hs hn, compile_eq_ok_iff, laidOut_granted, firstSeen_granted,
    signerTotal_granted]
  exact ⟨hs, hn, rfl, hsize⟩

/-- Instructions that were appended asked for no more than was permitted. -/
theorem allowsInTurn_of_foldlM_append : ∀ {jxs : List Instruction} {m : Message},
    jxs.foldlM append m = .ok m' → m.AllowsInTurn jxs
  | [], _, _ => trivial
  | jx :: jxs, m, h => by
    rw [List.foldlM_cons] at h
    rcases happend : m.append jx with f | next
    · rw [happend] at h
      cases h
    · rw [happend] at h
      refine ⟨(append_eq_ok_iff.1 happend).1.allows, fun other hother => ?_⟩
      obtain rfl : next = other := Except.ok.inj (happend.symm.trans hother)
      exact allowsInTurn_of_foldlM_append h

/-- A message that instructions were appended to is compiled from all of them. -/
theorem compile_of_foldlM_append (h : compile version feePayer recentHash ixs = .ok m)
    (happend : jxs.foldlM append m = .ok m') :
    compile version feePayer recentHash (ixs ++ jxs) = .ok m' := by
  cases version with
  | legacy => exact (foldlM_append_eq_ok_iff h (allowsInTurn_of_foldlM_append happend)).1 happend
  | v0 =>
    obtain ⟨-, -, rfl, -⟩ := compile_eq_ok_iff.1 h
    cases jxs with
    | nil =>
      rw [List.append_nil, h]
      exact happend
    | cons jx jxs => cases happend

/-- A compiled message, and one that instructions were appended to since, is compiled again from
what it calls, with its first account as the fee payer. -/
theorem recompile_of_foldlM_append (h : compile version feePayer recentHash ixs = .ok m)
    (happend : jxs.foldlM append m = .ok m') :
    ∃ payer, m'.keys.head? = some payer ∧
      compile m'.version payer m'.recentHash m'.expanded = .ok m' := by
  have hall := compile_of_foldlM_append h happend
  have hagain := compile_expanded hall
  obtain ⟨-, -, rfl, -⟩ := compile_eq_ok_iff.1 hall
  exact ⟨feePayer, rfl, hagain⟩

set_option maxRecDepth 4000 in
theorem recompile_calls :
    compile .legacy (.zero 32) (.padded 32 [9]) calls =
        .ok (laidOut .legacy (.zero 32) (.padded 32 [9]) calls) ∧
      [further, further].foldlM append (laidOut .legacy (.zero 32) (.padded 32 [9]) calls) =
        .ok (laidOut .legacy (.zero 32) (.padded 32 [9]) (calls ++ [further, further])) ∧
      ∃ payer, (laidOut .legacy (.zero 32) (.padded 32 [9])
          (calls ++ [further, further])).keys.head? = some payer ∧
        compile .legacy payer (.padded 32 [9]) (laidOut .legacy (.zero 32) (.padded 32 [9])
          (calls ++ [further, further])).expanded =
            .ok (laidOut .legacy (.zero 32) (.padded 32 [9]) (calls ++ [further, further])) := by
  have hcalls : compile .legacy (.zero 32) (.padded 32 [9]) calls =
      .ok (laidOut .legacy (.zero 32) (.padded 32 [9]) calls) := rfl
  have happend :
      [further, further].foldlM append (laidOut .legacy (.zero 32) (.padded 32 [9]) calls) =
        .ok (laidOut .legacy (.zero 32) (.padded 32 [9]) (calls ++ [further, further])) := rfl
  exact ⟨hcalls, happend, recompile_of_foldlM_append hcalls happend⟩

end Message

end OfflineTx
