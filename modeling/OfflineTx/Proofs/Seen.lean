import Mathlib.Data.List.Basic
import Mathlib.Data.List.Induction
import OfflineTx.Message.Compile
import OfflineTx.Proofs.AddressMap

/-!
# The accounts that were seen

A row of references names each of its addresses in the order in which they are first seen
(`firstSeen`), and an address signs or is written if any reference to it says so. A compiler that
has collected a row holds just this (`Collected`), each reference more keeps it so
(`Collected.refer`), and laying out the table changes nothing but the indices
(`Collected.foldl_setIndex`).
-/

namespace OfflineTx

section FirstSeen

/-- The addresses that references name, in the order in which they are first seen. -/
def firstSeen (refs : List AccountMeta) : List Address :=
  (refs.map (·.address)).eraseDups

/-- Whether some reference asks the address to sign. -/
def signs (refs : List AccountMeta) (a : Address) : Bool :=
  refs.any fun r => r.address == a && r.signer

/-- Whether some reference asks for the address to be written. -/
def writes (refs : List AccountMeta) (a : Address) : Bool :=
  refs.any fun r => r.address == a && r.writable

/-- The references to addresses that are not in a list. -/
def unseen (as : List Address) (refs : List AccountMeta) : List AccountMeta :=
  refs.filter fun r => r.address ∉ as

variable {refs : List AccountMeta}

theorem mem_firstSeen {a : Address} : a ∈ firstSeen refs ↔ ∃ r ∈ refs, r.address = a := by
  simp [firstSeen, List.mem_eraseDups]

theorem eraseDups_snoc (l : List Address) (a : Address) :
    (l ++ [a]).eraseDups = if a ∈ l then l.eraseDups else l.eraseDups ++ [a] := by
  rw [List.eraseDups_append, List.cons_removeAll]
  by_cases h : a ∈ l
  · simp [h]
  · simp [h, List.eraseDups_cons]

theorem nodup_eraseDups (l : List Address) : l.eraseDups.Nodup := by
  induction l using List.reverseRecOn with
  | nil => exact List.nodup_nil
  | append_singleton l a ih =>
    rw [eraseDups_snoc]
    split
    · exact ih
    · rename_i h
      refine List.nodup_append.2 ⟨ih, List.pairwise_singleton _ _, fun b hb c hc hbc => h ?_⟩
      rw [← List.mem_singleton.1 hc, ← hbc]
      exact List.mem_eraseDups.1 hb

theorem nodup_firstSeen (refs : List AccountMeta) : (firstSeen refs).Nodup :=
  nodup_eraseDups _

theorem firstSeen_snoc (refs : List AccountMeta) (r : AccountMeta) :
    firstSeen (refs ++ [r]) =
      if r.address ∈ firstSeen refs then firstSeen refs else firstSeen refs ++ [r.address] := by
  simp only [firstSeen, List.map_append, List.map_cons, List.map_nil, eraseDups_snoc,
    List.mem_eraseDups]

/-- What was seen before comes first, and of the further references only those to other addresses
count. -/
theorem firstSeen_append (xs ys : List AccountMeta) :
    firstSeen (xs ++ ys) = firstSeen xs ++ firstSeen (unseen (firstSeen xs) ys) := by
  have hnew : (ys.map (·.address)).removeAll (xs.map (·.address)) =
      (unseen (firstSeen xs) ys).map (·.address) := by
    rw [unseen, List.removeAll, List.filter_map]
    refine congrArg _ (List.filter_congr fun r _ => ?_)
    rw [Bool.eq_iff_iff]
    simp [firstSeen, List.mem_eraseDups]
  rw [firstSeen, List.map_append, List.eraseDups_append, hnew, firstSeen, firstSeen]

theorem signs_append (xs ys : List AccountMeta) (a : Address) :
    signs (xs ++ ys) a = (signs xs a || signs ys a) :=
  List.any_append

theorem writes_append (xs ys : List AccountMeta) (a : Address) :
    writes (xs ++ ys) a = (writes xs a || writes ys a) :=
  List.any_append

theorem signs_snoc (refs : List AccountMeta) (r : AccountMeta) (a : Address) :
    signs (refs ++ [r]) a = (signs refs a || r.address == a && r.signer) := by
  simp [signs]

theorem writes_snoc (refs : List AccountMeta) (r : AccountMeta) (a : Address) :
    writes (refs ++ [r]) a = (writes refs a || r.address == a && r.writable) := by
  simp [writes]

theorem signs_of_not_mem {a : Address} (h : a ∉ firstSeen refs) : signs refs a = false := by
  rw [mem_firstSeen] at h
  simp only [signs, List.any_eq_false, Bool.and_eq_true, beq_iff_eq, not_and]
  exact fun r hr hra => absurd ⟨r, hr, hra⟩ h

theorem writes_of_not_mem {a : Address} (h : a ∉ firstSeen refs) : writes refs a = false := by
  rw [mem_firstSeen] at h
  simp only [writes, List.any_eq_false, Bool.and_eq_true, beq_iff_eq, not_and]
  exact fun r hr hra => absurd ⟨r, hr, hra⟩ h

theorem mem_firstSeen_unseen {as : List Address} {a : Address} :
    a ∈ firstSeen (unseen as refs) ↔ a ∉ as ∧ ∃ r ∈ refs, r.address = a := by
  simp only [mem_firstSeen, unseen, List.mem_filter, decide_eq_true_eq]
  constructor
  · rintro ⟨r, ⟨hr, hnot⟩, rfl⟩
    exact ⟨hnot, r, hr, rfl⟩
  · rintro ⟨hnot, r, hr, rfl⟩
    exact ⟨r, ⟨hr, hnot⟩, rfl⟩

theorem writes_unseen {as : List Address} {a : Address} (h : a ∉ as) :
    writes (unseen as refs) a = writes refs a := by
  rw [writes, writes, unseen, List.any_filter]
  refine congrArg (List.any refs) (funext fun r => ?_)
  by_cases hr : r.address = a
  · subst hr
    simp [h]
  · simp [hr]

end FirstSeen

/-- Changing the entry of one address of a list without duplicates. -/
theorem modify_map_idxOf {β : Type} {f g : Address → β} {change : β → β} {a : Address} :
    ∀ {l : List Address}, a ∈ l → l.Nodup → g a = change (f a) → (∀ b ∈ l, b ≠ a → g b = f b) →
      (l.map f).modify (l.idxOf a) change = l.map g
  | b :: l, ha, hl, hga, hg => by
    obtain ⟨hb, hl⟩ := List.nodup_cons.1 hl
    by_cases hab : b = a
    · subst hab
      rw [List.idxOf_cons_self, List.map_cons, List.map_cons, hga]
      refine congrArg _ (List.map_congr_left fun c hc => ?_)
      exact (hg c (List.mem_cons_of_mem _ hc) fun h => hb (h ▸ hc)).symm
    · have ha : a ∈ l := by
        rcases List.mem_cons.1 ha with h | h
        · exact absurd h.symm hab
        · exact h
      rw [List.idxOf_cons_ne _ hab, List.map_cons, List.map_cons, hg b List.mem_cons_self hab]
      exact congrArg _ (modify_map_idxOf ha hl hga fun c hc => hg c (List.mem_cons_of_mem _ hc))

namespace Compiler

/-- An address as it was seen, with an index. -/
def seenAs (refs : List AccountMeta) (index : Address → UInt8) (a : Address) : SeenAccount where
  address := a
  signer := signs refs a
  writable := writes refs a
  index := index a

/-- The compiler holds the accounts of the references, each once and with all that is asked of it,
and has noted these indices for them. -/
structure Collected (c : Compiler) (refs : List AccountMeta) (index : Address → UInt8) : Prop where
  linked : c.positions.Linked
  lookup_eq : ∀ a, c.positions.lookup? a =
    if a ∈ firstSeen refs then some ((firstSeen refs).idxOf a) else none
  seen_eq : c.seen.toList = (firstSeen refs).map (seenAs refs index)

variable {c : Compiler} {refs : List AccountMeta} {index : Address → UInt8}

theorem Collected.size_eq (h : c.Collected refs index) : c.seen.size = (firstSeen refs).length := by
  rw [← Array.length_toList, h.seen_eq, List.length_map]

theorem seenAs_snoc (refs : List AccountMeta) (index : Address → UInt8) (r : AccountMeta)
    (a : Address) :
    seenAs (refs ++ [r]) index a =
      if r.address = a then merge r (seenAs refs index a) else seenAs refs index a := by
  simp only [seenAs, merge, signs_snoc, writes_snoc]
  split
  · simp_all
  · simp_all

theorem Collected.refer (h : c.Collected refs fun _ => 0) (r : AccountMeta) :
    (c.refer r).Collected (refs ++ [r]) fun _ => 0 := by
  unfold Compiler.refer
  rw [h.lookup_eq]
  by_cases hr : r.address ∈ firstSeen refs
  -- An address seen before keeps its place, and only its entry gets what is asked for.
  · rw [if_pos hr]
    have hseen : firstSeen (refs ++ [r]) = firstSeen refs := by rw [firstSeen_snoc, if_pos hr]
    refine ⟨h.linked, fun a => by rw [hseen, h.lookup_eq], ?_⟩
    simp only [Array.toList_modify, h.seen_eq, hseen]
    refine modify_map_idxOf hr (nodup_firstSeen refs) ?_ fun b _ hb => ?_
    · rw [seenAs_snoc, if_pos rfl]
    · rw [seenAs_snoc, if_neg fun h => hb h.symm]
  · rw [if_neg hr]
    have hseen : firstSeen (refs ++ [r]) = firstSeen refs ++ [r.address] := by
      rw [firstSeen_snoc, if_neg hr]
    refine ⟨h.linked.insert _ _, fun a => ?_, ?_⟩
    · rw [AddressMap.lookup?_insert h.linked, h.lookup_eq, hseen, h.size_eq]
      by_cases ha : r.address = a
      · subst ha
        simp [List.idxOf_append, hr]
      · rw [if_neg ha]
        by_cases hm : a ∈ firstSeen refs
        · simp [hm, List.idxOf_append]
        · simp [hm, Ne.symm ha]
    · simp only [Array.toList_push, h.seen_eq, hseen, List.map_append, List.map_cons, List.map_nil]
      congr 1
      · refine List.map_congr_left fun b hb => ?_
        rw [seenAs_snoc, if_neg]
        rintro rfl
        exact hr hb
      · rw [seenAs_snoc, if_pos rfl]
        simp [merge, seenAs, signs_of_not_mem hr, writes_of_not_mem hr]

theorem Collected.foldl_refer : ∀ {rs : List AccountMeta} {c : Compiler} {refs : List AccountMeta},
    c.Collected refs (fun _ => 0) →
      (rs.foldl Compiler.refer c).Collected (refs ++ rs) fun _ => 0
  | [], _, _, h => by rwa [List.append_nil]
  | r :: rs, c, refs, h => by
    rw [List.foldl_cons, List.append_cons]
    exact (h.refer r).foldl_refer

theorem collected_clear (hc : 0 < c.positions.nodes.size) : c.clear.Collected [] fun _ => 0 where
  linked := AddressMap.linked_clear (by decide) hc
  lookup_eq := AddressMap.lookup?_clear (by decide) hc
  seen_eq := rfl

end Compiler

/-- The references of instructions that a fee payer pays for: the payer, which signs and is
written, then those of each instruction in turn. -/
def references (feePayer : Address) (ixs : List Instruction) : List AccountMeta :=
  { address := feePayer, signer := true, writable := true } :: ixs.flatMap Instruction.references

theorem references_append (feePayer : Address) (ixs jxs : List Instruction) :
    references feePayer (ixs ++ jxs) =
      references feePayer ixs ++ jxs.flatMap Instruction.references := by
  rw [references, List.flatMap_append, references, List.cons_append]

theorem Instruction.program_mem_references (ix : Instruction) :
    ⟨ix.program, false, false⟩ ∈ ix.references :=
  List.mem_append_right _ List.mem_cons_self

/-- A program is not written for being called. -/
theorem Instruction.writes_references {ix : Instruction} {a : Address} :
    writes ix.references a = true ↔ ∃ r ∈ ix.accounts, r.address = a ∧ r.writable = true := by
  simp [writes, references]

theorem mem_firstSeen_references {feePayer : Address} {ixs : List Instruction} {ix : Instruction}
    {r : AccountMeta} (hix : ix ∈ ixs) (hr : r ∈ ix.references) :
    r.address ∈ firstSeen (references feePayer ixs) :=
  mem_firstSeen.2 ⟨r, List.mem_cons_of_mem _ (List.mem_flatMap.2 ⟨ix, hix, hr⟩), rfl⟩

theorem firstSeen_references (feePayer : Address) (ixs : List Instruction) :
    firstSeen (references feePayer ixs) =
      feePayer :: (firstSeen (references feePayer ixs)).filter (· ≠ feePayer) := by
  have hcons : ∃ l, firstSeen (references feePayer ixs) = feePayer :: l := by
    simp only [firstSeen, references, List.map_cons, List.eraseDups_cons]
    exact ⟨_, rfl⟩
  obtain ⟨l, hl⟩ := hcons
  have hnd := nodup_firstSeen (references feePayer ixs)
  rw [hl] at hnd ⊢
  obtain ⟨hp, -⟩ := List.nodup_cons.1 hnd
  have hfilter : l.filter (· ≠ feePayer) = l := by
    rw [List.filter_eq_self]
    intro a ha
    rw [decide_eq_true_eq]
    rintro rfl
    exact hp ha
  rw [List.filter_cons_of_neg (by simp), hfilter]

namespace Compiler

variable {c : Compiler} {refs : List AccountMeta} {index : Address → UInt8}

/-- A compiler holds what it collected last, whatever it held before. -/
theorem collected_collect (hc : 0 < c.positions.nodes.size) (feePayer : Address)
    (ixs : List Instruction) :
    (c.collect feePayer ixs).Collected (references feePayer ixs) fun _ => 0 := by
  have hstart := (collected_clear hc).refer
    { address := feePayer, signer := true, writable := true }
  have hfold : c.collect feePayer ixs = (ixs.flatMap Instruction.references).foldl Compiler.refer
      (c.clear.refer { address := feePayer, signer := true, writable := true }) := by
    rw [List.foldl_flatMap]
    rfl
  rw [hfold]
  exact hstart.foldl_refer

section LayOut

theorem Collected.setIndex (h : c.Collected refs index) {a : Address} (ha : a ∈ firstSeen refs)
    (i : Nat) :
    (c.setIndex a i).Collected refs fun b => if b = a then i.toUInt8 else index b := by
  unfold Compiler.setIndex
  rw [h.lookup_eq, if_pos ha]
  refine ⟨h.linked, h.lookup_eq, ?_⟩
  simp only [Array.toList_modify, h.seen_eq]
  refine modify_map_idxOf ha (nodup_firstSeen refs) ?_ fun b _ hb => ?_
  · simp [seenAs]
  · simp [seenAs, hb]

/-- Noting indices for a list of addresses, counted from `k` on. -/
theorem Collected.foldl_setIndex : ∀ (as : List Address) (k : Nat) {c : Compiler}
    {index : Address → UInt8}, c.Collected refs index → (∀ a ∈ as, a ∈ firstSeen refs) → as.Nodup →
      ((as.zipIdx k).foldl (fun c (a, i) => c.setIndex a i) c).Collected refs
        fun b => if b ∈ as then (k + as.idxOf b).toUInt8 else index b
  | [], _, _, _, h, _, _ => by simpa using h
  | a :: as, k, c, index, h, hmem, hnd => by
    obtain ⟨ha, hnd⟩ := List.nodup_cons.1 hnd
    have hstep := foldl_setIndex as (k + 1) (h.setIndex (hmem a List.mem_cons_self) k)
      (fun b hb => hmem b (List.mem_cons_of_mem _ hb)) hnd
    rw [List.zipIdx_cons, List.foldl_cons]
    convert hstep using 2 with b
    by_cases hb : b = a
    · subst hb
      simp [ha]
    · simp only [List.idxOf_cons_ne _ (Ne.symm hb), List.mem_cons, hb, false_or, if_false]
      rw [← Nat.succ_add_eq_add_succ]

theorem Collected.index_eq (h : c.Collected refs index) {a : Address} (ha : a ∈ firstSeen refs) :
    c.index a = index a := by
  have hlt := List.idxOf_lt_length_of_mem ha
  unfold Compiler.index
  rw [h.lookup_eq, if_pos ha]
  simp only [Array.getD_eq_getD_getElem?, ← Array.getElem?_toList, h.seen_eq, List.getElem?_map,
    List.getElem?_eq_getElem hlt, List.getElem_idxOf hlt, Option.map_some, Option.getD_some, seenAs]

end LayOut

end Compiler

end OfflineTx
