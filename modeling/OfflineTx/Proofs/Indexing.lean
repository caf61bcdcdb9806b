import Mathlib.Data.Finset.Card
import OfflineTx.KeyStore.Basic
import OfflineTx.Proofs.Seen
import OfflineTx.Proofs.Volume

/-!
# The index of a key store

A store keeps of the pairs with one address the first (`firstPairs`), and its map of positions finds
each pair by its address (`Indexed.find?_eq`). Every call keeps it so, whatever it answers
(`Reached.indexed`), so what a store holds can be read off the list of its pairs.
-/

namespace OfflineTx

section FirstPairs

/-- Of the pairs with one address only the first, in the order in which the addresses come. -/
def firstPairs (ks : List KeyPair) : List KeyPair :=
  (ks.map (·.address)).eraseDups.filterMap fun a => ks.find? (·.address == a)

variable {ks : List KeyPair} {k : KeyPair} {a : Address}

theorem isSome_find?_address_iff :
    (ks.find? (·.address == a)).isSome = true ↔ a ∈ ks.map (·.address) := by
  simp [List.find?_isSome]

theorem map_address_firstPairs (ks : List KeyPair) :
    (firstPairs ks).map (·.address) = (ks.map (·.address)).eraseDups := by
  rw [firstPairs, List.map_filterMap]
  refine (List.filterMap_congr fun a ha => ?_).trans List.filterMap_some
  obtain ⟨k, hk⟩ := Option.isSome_iff_exists.1
    (isSome_find?_address_iff.2 (List.mem_eraseDups.1 ha))
  have hka : k.address = a := by simpa using List.find?_some hk
  rw [hk, Option.map_some, hka]

theorem nodup_firstPairs (ks : List KeyPair) : ((firstPairs ks).map (·.address)).Nodup := by
  rw [map_address_firstPairs]
  exact nodup_eraseDups _

theorem length_firstPairs (ks : List KeyPair) :
    (firstPairs ks).length = (ks.map (·.address)).toFinset.card := by
  rw [← List.length_map (·.address), ← List.toFinset_card_of_nodup (nodup_firstPairs ks),
    map_address_firstPairs]
  congr 1
  ext a
  simp [List.mem_eraseDups]

theorem mem_firstPairs : k ∈ firstPairs ks ↔ ks.find? (·.address == k.address) = some k := by
  rw [firstPairs, List.mem_filterMap]
  constructor
  · rintro ⟨a, -, hk⟩
    have hka : k.address = a := by simpa using List.find?_some hk
    rwa [hka]
  · intro hk
    exact ⟨k.address, List.mem_eraseDups.2 (isSome_find?_address_iff.1 (by rw [hk]; rfl)), hk⟩

theorem find?_firstPairs (ks : List KeyPair) (a : Address) :
    (firstPairs ks).find? (·.address == a) = ks.find? (·.address == a) := by
  ext k
  rw [find?_key_eq_some_iff (nodup_firstPairs ks), mem_firstPairs]
  constructor
  · rintro ⟨hk, rfl⟩
    exact hk
  · intro hk
    have hka : k.address = a := by simpa using List.find?_some hk
    exact ⟨by rwa [hka], hka⟩

theorem firstPairs_snoc (ks : List KeyPair) (k : KeyPair) :
    firstPairs (ks ++ [k]) = if (ks.find? (·.address == k.address)).isSome then firstPairs ks
      else firstPairs ks ++ [k] := by
  have hold : ∀ a ∈ (ks.map (·.address)).eraseDups,
      (ks ++ [k]).find? (·.address == a) = ks.find? (·.address == a) := by
    intro a ha
    obtain ⟨k', hk'⟩ := Option.isSome_iff_exists.1
      (isSome_find?_address_iff.2 (List.mem_eraseDups.1 ha))
    rw [List.find?_append, hk', Option.some_or]
  rw [firstPairs, List.map_append, List.map_singleton, eraseDups_snoc]
  by_cases h : k.address ∈ ks.map (·.address)
  · rw [if_pos h, if_pos (isSome_find?_address_iff.2 h), List.filterMap_congr hold, firstPairs]
  · have hnone : ks.find? (·.address == k.address) = none :=
      Option.not_isSome_iff_eq_none.1 fun h' => h (isSome_find?_address_iff.1 h')
    rw [if_neg h, hnone, if_neg (by simp), List.filterMap_append, List.filterMap_congr hold,
      firstPairs]
    simp [List.find?_append, hnone]

end FirstPairs

namespace KeyStore

variable {s : KeyStore} {v : Volume} {k : KeyPair} {ks : List KeyPair} {a : Address}

section Index

/-- The map of positions leads from an address to the pair that has it. -/
structure Indexed (s : KeyStore) : Prop where
  linked : s.positions.Linked
  lookup?_eq : ∀ a, s.positions.lookup? a = s.toList.findIdx? (·.address == a)

theorem Indexed.find?_eq (h : s.Indexed) (a : Address) :
    s.find? a = s.toList.find? (·.address == a) := by
  rw [find?, h.lookup?_eq, List.find?_eq_bind_findIdx?_getElem?]
  simp [toList]

theorem toList_insert (s : KeyStore) (k : KeyPair) : (s.insert k).toList = s.toList ++ [k] := by
  simp [toList, insert]

/-- A pair is put at the end, and found there if its address is new. -/
theorem Indexed.insert (h : s.Indexed) (hnew : s.find? k.address = none) :
    (s.insert k).Indexed where
  linked := h.linked.insert _ _
  lookup?_eq a := by
    rw [h.find?_eq, List.find?_eq_none] at hnew
    rw [toList_insert, List.findIdx?_append]
    simp only [KeyStore.insert, AddressMap.lookup?_insert h.linked, h.lookup?_eq]
    by_cases ha : k.address = a
    · have hnone : s.toList.findIdx? (·.address == a) = none :=
        List.findIdx?_eq_none_iff.2 fun k' hk' => by simpa [ha] using hnew k' hk'
      rw [if_pos ha, hnone]
      simp [ha, toList]
    · simp [ha]

theorem Indexed.find?_insert (h : s.Indexed) (hnew : s.find? k.address = none) (a : Address) :
    (s.insert k).find? a = if k.address = a then some k else s.find? a := by
  rw [(h.insert hnew).find?_eq, toList_insert, List.find?_append, ← h.find?_eq]
  split
  · rename_i ha
    rw [← ha, hnew]
    simp
  · rename_i ha
    simp [ha]

theorem Indexed.clear (h : s.Indexed) : s.clear.Indexed where
  linked := AddressMap.linked_clear h.linked.width_pos h.linked.nodes_pos
  lookup?_eq a := AddressMap.lookup?_clear h.linked.width_pos h.linked.nodes_pos a

theorem indexed_empty : KeyStore.empty.Indexed where
  linked := AddressMap.linked_empty (by decide)
  lookup?_eq a := AddressMap.lookup?_empty (by decide) a

/-- The store holds the first pairs of a row. -/
structure Holds (s : KeyStore) (ks : List KeyPair) : Prop where
  indexed : s.Indexed
  toList_eq : s.toList = firstPairs ks

theorem Indexed.withErrors (h : s.Indexed) (errors : ErrorState) :
    ({ s with errors } : KeyStore).Indexed :=
  ⟨h.linked, h.lookup?_eq⟩

theorem Holds.withErrors (h : s.Holds ks) (errors : ErrorState) :
    ({ s with errors } : KeyStore).Holds ks :=
  ⟨h.indexed.withErrors errors, h.toList_eq⟩

theorem Holds.find?_eq (h : s.Holds ks) (a : Address) :
    s.find? a = ks.find? (·.address == a) := by
  rw [h.indexed.find?_eq, h.toList_eq, find?_firstPairs]

theorem Holds.size_eq (h : s.Holds ks) : s.size = (ks.map (·.address)).toFinset.card := by
  rw [← length_firstPairs, ← h.toList_eq, size, toList, Array.length_toList]

theorem Indexed.clear_holds (h : s.Indexed) : s.clear.Holds [] where
  indexed := h.clear
  toList_eq := rfl

/-- The store with one pair more, if its address is new. -/
def keep (s : KeyStore) (k : KeyPair) : KeyStore :=
  if (s.find? k.address).isSome then s else s.insert k

@[simp] theorem directory_keep (s : KeyStore) (k : KeyPair) :
    (s.keep k).directory = s.directory := by
  unfold keep
  split <;> rfl

@[simp] theorem errors_keep (s : KeyStore) (k : KeyPair) : (s.keep k).errors = s.errors := by
  unfold keep
  split <;> rfl

theorem Holds.keep (h : s.Holds ks) (k : KeyPair) : (s.keep k).Holds (ks ++ [k]) := by
  unfold KeyStore.keep
  split
  · rename_i hsome
    exact ⟨h.indexed, by rw [firstPairs_snoc, ← h.find?_eq, if_pos hsome, h.toList_eq]⟩
  · rename_i hnone
    refine ⟨h.indexed.insert (Option.not_isSome_iff_eq_none.1 hnone), ?_⟩
    rw [firstPairs_snoc, ← h.find?_eq, if_neg hnone, toList_insert, h.toList_eq]

end Index

section Files

variable {names : List Bytes}

/-- The pairs in the files of a directory, in the order of the names. -/
def filePairs (v : Volume) (directory : Bytes) (names : List Bytes) : List KeyPair :=
  names.filterMap fun name => readPair? v (directory ++ name)

/-- The first of the names whose file holds no pair. -/
def badFile? (v : Volume) (directory : Bytes) (names : List Bytes) : Option Bytes :=
  names.find? fun name => (readPair? v (directory ++ name)).isNone

theorem badFile?_eq_none_iff {directory : Bytes} : badFile? v directory names = none ↔
    ∀ name ∈ names, (readPair? v (directory ++ name)).isSome = true := by
  simp [badFile?, Option.isSome_iff_ne_none]

variable {name : Bytes}

theorem loadFiles_cons_none (h : readPair? v (s.directory ++ name) = none) (names : List Bytes) :
    loadFiles v s (name :: names) = s.clear.refuse (.keyFileInvalid (s.directory ++ name)) := by
  simp only [loadFiles, h]

theorem loadFiles_cons_some (h : readPair? v (s.directory ++ name) = some k) (names : List Bytes) :
    (loadFiles v s (name :: names)).answer = (loadFiles v (s.keep k) names).answer ∧
      (loadFiles v s (name :: names)).after = (loadFiles v (s.keep k) names).after := by
  simp only [loadFiles, h, keep]
  split <;> exact ⟨rfl, rfl⟩

theorem answer_loadFiles : ∀ (names : List Bytes) (s : KeyStore), (loadFiles v s names).answer =
    match badFile? v s.directory names with
    | none => .ok ()
    | some name => .error (.keyFileInvalid (s.directory ++ name))
  | [], _ => rfl
  | name :: names, s => by
    rw [badFile?, List.find?_cons]
    cases hread : readPair? v (s.directory ++ name) with
    | none => rw [loadFiles_cons_none hread]; rfl
    | some k =>
      rw [(loadFiles_cons_some hread names).1, answer_loadFiles names, directory_keep]
      rfl

/-- What the store reports while it loads changes only with a file that holds no pair. -/
theorem errors_loadFiles : ∀ (names : List Bytes) (s : KeyStore),
    (loadFiles v s names).after.errors =
      match badFile? v s.directory names with
      | none => s.errors
      | some name => .ofFault (.keyFileInvalid (s.directory ++ name))
  | [], _ => rfl
  | name :: names, s => by
    rw [badFile?, List.find?_cons]
    cases hread : readPair? v (s.directory ++ name) with
    | none => rw [loadFiles_cons_none hread]; rfl
    | some k =>
      rw [(loadFiles_cons_some hread names).2, errors_loadFiles names, directory_keep, errors_keep]
      rfl

theorem directory_loadFiles : ∀ (names : List Bytes) (s : KeyStore),
    (loadFiles v s names).after.directory = s.directory
  | [], _ => rfl
  | name :: names, s => by
    cases hread : readPair? v (s.directory ++ name) with
    | none => rw [loadFiles_cons_none hread]; rfl
    | some k =>
      rw [(loadFiles_cons_some hread names).2, directory_loadFiles names, directory_keep]

/-- Files that all hold a pair are held with what was there, and otherwise nothing is. -/
theorem loadFiles_holds : ∀ {names : List Bytes} {s : KeyStore} {ks : List KeyPair}, s.Holds ks →
    (loadFiles v s names).after.Holds (match badFile? v s.directory names with
      | none => ks ++ filePairs v s.directory names
      | some _ => [])
  | [], s, ks, h => by
    simpa [badFile?, filePairs, loadFiles] using h
  | name :: names, s, ks, h => by
    rw [badFile?, List.find?_cons, filePairs, List.filterMap_cons]
    cases hread : readPair? v (s.directory ++ name) with
    | none =>
      rw [loadFiles_cons_none hread]
      exact h.indexed.clear_holds.withErrors _
    | some k =>
      have hrest : (loadFiles v (s.keep k) names).after.Holds _ := loadFiles_holds (h.keep k)
      rw [(loadFiles_cons_some hread names).2]
      rw [directory_keep, List.append_assoc] at hrest
      exact hrest

end Files

end KeyStore

end OfflineTx
