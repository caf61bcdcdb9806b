import OfflineTx.Proofs.Indexing
import OfflineTx.Proofs.Written

/-!
# Loading a directory

A call on a store keeps its index (`Reached.indexed`), and loading starts from an empty store. So
what is held after a directory was loaded does not depend on what was held before, nor on the order
in which the volume lists the directory: the first pair in the order of file names is the pair of
its address, and a file without a pair leaves nothing (`load_loaded`).
-/

namespace OfflineTx.KeyStore

variable {s : KeyStore} {v w : Volume} {place : Place} {k : KeyPair} {ks : List KeyPair}
  {name : Bytes}

section Calls

/-- A call on a key store. A new pair is made of a secret, if there is one, and its file is written
as the system takes it. -/
inductive Call
  | setDirectory (directory : Bytes)
  | create
  | load
  | add (k : KeyPair) (writing : Writing := .complete)
  | generate (secret? : Option (FixedBytes 32)) (writing : Writing := .complete)

def call (s : KeyStore) (v : Volume) : Call → Reply (KeyStore × Volume) Unit
  | .setDirectory directory => { answer := .ok (), after := (s.setDirectory directory, v) }
  | .create => s.create v
  | .load =>
    let reply := s.load v
    { answer := reply.answer, after := (reply.after, v), log := reply.log }
  | .add k writing => s.add v k writing
  | .generate secret? writing =>
    let reply := s.generate v secret? writing
    { answer := reply.answer.map fun _ => (), after := reply.after, log := reply.log }

/-- A store as calls leave it, each of them on any volume. -/
inductive Reached : KeyStore → Prop
  | empty : Reached .empty
  | call {s : KeyStore} (h : Reached s) (v : Volume) (c : Call) : Reached (s.call v c).after.1

theorem Indexed.setDirectory (h : s.Indexed) (directory : Bytes) :
    (s.setDirectory directory).Indexed :=
  ⟨h.linked, h.lookup?_eq⟩

theorem Holds.setDirectory (h : s.Holds ks) (directory : Bytes) :
    (s.setDirectory directory).Holds ks :=
  ⟨h.indexed.setDirectory directory, h.toList_eq⟩

/-- The store that the files of the directory are loaded into. -/
def opened (s : KeyStore) : KeyStore :=
  ({ s.clear with errors := .clear } : KeyStore).setDirectory (withSlash s.directory)

theorem Indexed.opened_holds (h : s.Indexed) : s.opened.Holds [] :=
  (h.clear_holds.withErrors _).setDirectory _

theorem load_of_unfit {f : Fault} (h : checkDirectory v s.directory = .error f) :
    s.load v = { answer := .error f, after := { s.clear with errors := .ofFault f } } := by
  have hclear : checkDirectory v s.clear.directory = .error f := h
  simp only [load, hclear]
  rfl

theorem load_of_closed {number : Int} (h : checkDirectory v s.directory = .ok place)
    (hclosed : v.openDirectory (withSlash s.directory) = .error number) :
    s.load v =
      { answer := .error (.directoryNotOpened number)
        after := { s.opened with errors := .ofFault (.directoryNotOpened number) } } := by
  have hclear : checkDirectory v s.clear.directory = .ok place := h
  have hopened : v.openDirectory s.opened.directory = .error number := hclosed
  have hset : ({ s.clear with errors := .clear } : KeyStore).setDirectory
      (withSlash s.clear.directory) = s.opened := rfl
  simp only [load, hclear, loadDirectory, hset, hopened]
  rfl

theorem load_of_listed {p : Place} (h : checkDirectory v s.directory = .ok p)
    (hopen : v.openDirectory (withSlash s.directory) = .ok place) :
    s.load v = loadFiles v s.opened (keyFiles v place) := by
  have hclear : checkDirectory v s.clear.directory = .ok p := h
  have hopened : v.openDirectory s.opened.directory = .ok place := hopen
  have hset : ({ s.clear with errors := .clear } : KeyStore).setDirectory
      (withSlash s.clear.directory) = s.opened := rfl
  simp only [load, hclear, loadDirectory, hset, hopened]

theorem Indexed.load (h : s.Indexed) (v : Volume) : (s.load v).after.Indexed := by
  cases hcheck : checkDirectory v s.directory with
  | error f => exact load_of_unfit hcheck ▸ (h.clear_holds.withErrors _).indexed
  | ok p =>
    cases hopen : v.openDirectory (withSlash s.directory) with
    | error number => exact load_of_closed hcheck hopen ▸ (h.opened_holds.withErrors _).indexed
    | ok place => exact load_of_listed hcheck hopen ▸ (loadFiles_holds h.opened_holds).indexed

variable {writing : Writing}

/-- A pair is held already, or its file is not written, or it is written and the pair is kept. -/
theorem add_cases (s : KeyStore) (v : Volume) (k : KeyPair) (writing : Writing) :
    ((s.find? k.address).isSome = true ∧ (s.add v k writing).answer = .ok () ∧
      (s.add v k writing).after = ({ s with errors := .clear }, v)) ∨
    (s.find? k.address = none ∧
      ((∃ number w, writeKeyFile v (s.keyFile k.address) k writing = (.error number, w) ∧
        (s.add v k writing).answer = .error (.keyFileNotWritten (s.keyFile k.address) number) ∧
          (s.add v k writing).after =
            ({ s with errors := .ofFault (.keyFileNotWritten (s.keyFile k.address) number) }, w)) ∨
      ∃ w, writeKeyFile v (s.keyFile k.address) k writing = (.ok (), w) ∧
        (s.add v k writing).answer = .ok () ∧
          (s.add v k writing).after =
            (({ s with errors := .clear } : KeyStore).insert k, w))) := by
  have hfind : ({ s with errors := .clear } : KeyStore).find? k.address = s.find? k.address := rfl
  have hfile : ({ s with errors := .clear } : KeyStore).keyFile k.address =
      s.keyFile k.address := rfl
  simp only [add, hfind, hfile]
  cases hheld : s.find? k.address with
  | some held => exact .inl ⟨rfl, rfl, rfl⟩
  | none =>
    refine .inr ⟨rfl, ?_⟩
    obtain ⟨number | ⟨⟩, w⟩ := writeKeyFile v (s.keyFile k.address) k writing
    · exact .inl ⟨number, w, rfl, rfl, rfl⟩
    · exact .inr ⟨w, rfl, rfl, rfl⟩

theorem directory_add (s : KeyStore) (v : Volume) (k : KeyPair) (writing : Writing) :
    (s.add v k writing).after.1.directory = s.directory := by
  obtain ⟨-, -, hafter⟩ | ⟨-, ⟨number, w, -, -, hafter⟩ | ⟨w, -, -, hafter⟩⟩ :=
    add_cases s v k writing
  all_goals exact hafter ▸ rfl

/-- What is done to the volume is to write the file of a pair that is not held. -/
theorem volume_add (s : KeyStore) (v : Volume) (k : KeyPair) (writing : Writing) :
    (s.add v k writing).after.2 =
      if (s.find? k.address).isSome then v
      else (writeKeyFile v (s.keyFile k.address) k writing).2 := by
  obtain ⟨hheld, -, hafter⟩ | ⟨hnew, ⟨number, w, hwrite, -, hafter⟩ | ⟨w, hwrite, -, hafter⟩⟩ :=
    add_cases s v k writing
  · rw [hafter, if_pos hheld]
  · rw [hafter, hnew, hwrite]
    rfl
  · rw [hafter, hnew, hwrite]
    rfl

theorem extends_add (s : KeyStore) (v : Volume) (k : KeyPair) (writing : Writing) :
    v.Extends (s.add v k writing).after.2 := by
  rw [volume_add]
  split
  · exact Volume.extends_refl v
  · exact extends_writeKeyFile v (s.keyFile k.address) k writing

theorem Indexed.add (h : s.Indexed) (v : Volume) (k : KeyPair) (writing : Writing) :
    (s.add v k writing).after.1.Indexed := by
  obtain ⟨-, -, hafter⟩ | ⟨hnew, ⟨number, w, -, -, hafter⟩ | ⟨w, -, -, hafter⟩⟩ :=
    add_cases s v k writing
  · exact hafter ▸ h.withErrors _
  · exact hafter ▸ h.withErrors _
  · exact hafter ▸ (h.withErrors .clear).insert hnew

theorem Indexed.call (h : s.Indexed) (v : Volume) (c : Call) : (s.call v c).after.1.Indexed := by
  cases c with
  | setDirectory directory => exact h.setDirectory directory
  | create =>
    simp only [KeyStore.call, create]
    split
    · exact h
    · exact h.withErrors _
  | load => exact h.load v
  | add k writing => exact h.add v k writing
  | generate secret? writing =>
    cases secret? with
    | none => exact h.withErrors _
    | some secret => exact (h.withErrors .clear).add v (.ofSecret secret) writing

theorem Reached.indexed (h : s.Reached) : s.Indexed := by
  induction h with
  | empty => exact indexed_empty
  | call _ v c ih => exact ih.call v c

end Calls

section Files

theorem isKeyFile_iff : isKeyFile name = true ↔ 5 < name.length ∧ ascii ".json" <:+ name := by
  rw [isKeyFile, Bool.and_eq_true, decide_eq_true_eq, List.isSuffixOf_iff_suffix]
  rfl

theorem mem_keyFiles : name ∈ keyFiles v place ↔
    (v.entry? (place ++ [name])).isSome = true ∧ 5 < name.length ∧ ascii ".json" <:+ name := by
  rw [keyFiles, List.mem_mergeSort, List.mem_filter, Volume.mem_names, isKeyFile_iff]

theorem pairwise_keyFiles (v : Volume) (place : Place) :
    (keyFiles v place).Pairwise (· ≤ ·) := by
  refine (List.pairwise_mergeSort (fun a b c hab hbc => ?_) (fun a b => ?_) _).imp
    of_decide_eq_true
  · exact decide_eq_true (List.le_trans (of_decide_eq_true hab) (of_decide_eq_true hbc))
  · simpa using List.le_total a b

/-- Key files in ascending order are determined by which they are. -/
theorem keyFiles_eq {names : List Bytes} (hasc : names.Pairwise (· ≤ ·))
    (hperm : ((v.names place).filter isKeyFile).Perm names) : keyFiles v place = names :=
  ((List.mergeSort_perm _ _).trans hperm).eq_of_pairwise
    (fun _ _ _ _ hab hba => List.le_antisymm hab hba) (pairwise_keyFiles v place) hasc

/-- The order in which a directory is listed does not count. -/
theorem keyFiles_perm (h : v.entries.Perm w.entries) (place : Place) :
    keyFiles v place = keyFiles w place :=
  keyFiles_eq (pairwise_keyFiles w place)
    (((Volume.names_perm h place).filter _).trans (List.mergeSort_perm _ _).symm)

theorem getLast?_withSlash (directory : Bytes) :
    (withSlash directory).getLast? = some Volume.slash := by
  unfold withSlash
  split
  · rename_i hlast
    exact beq_iff_eq.1 hlast
  · exact List.getLast?_concat

theorem zero_mem_withSlash {directory : Bytes} : 0 ∈ withSlash directory ↔ 0 ∈ directory := by
  unfold withSlash
  split
  · rfl
  · simp [Volume.slash]

theorem splitNames_withSlash (directory : Bytes) :
    Volume.splitNames (withSlash directory) = Volume.splitNames directory := by
  unfold withSlash
  split
  · rfl
  · rw [Volume.splitNames_append_slash]
    exact List.append_nil _

theorem withSlash_withSlash (directory : Bytes) :
    withSlash (withSlash directory) = withSlash directory := by
  rw [withSlash, if_pos (beq_iff_eq.2 (getLast?_withSlash directory))]

theorem withSlash_eq {directory d : Bytes} (h : d = directory ∨ d = withSlash directory) :
    withSlash d = withSlash directory := by
  obtain rfl | rfl := h
  · rfl
  · exact withSlash_withSlash directory

theorem checkDirectory_eq_ok_iff {directory : Bytes} : checkDirectory v directory = .ok place ↔
    v.locate directory = .ok place ∧ ∃ mode, v.entry? place = some (.directory mode .owner) ∧
      mode &&& 0o400 ≠ 0 ∧ mode &&& 0o200 ≠ 0 ∧ mode &&& 0o077 = 0 := by
  unfold checkDirectory
  cases v.locate directory with
  | error number => exact ⟨nofun, nofun⟩
  | ok p =>
    simp only [Except.ok.injEq]
    constructor
    · intro h
      split at h
      · cases h
      · cases h
      · rename_i mode standing he
        split at h
        · cases h
        · rename_i howned
          split at h
          · cases h
          · rename_i hread
            split at h
            · cases h
            · rename_i hwrite
              split at h
              · cases h
              · rename_i hprivate
                cases h
                exact ⟨rfl, mode, not_not.1 howned ▸ he, hread, hwrite, not_not.1 hprivate⟩
    · rintro ⟨rfl, mode, he, hread, hwrite, hprivate⟩
      simp only [he, ne_eq, not_true_eq_false, if_false, if_neg hread, if_neg hwrite, hprivate]

/-- The path of a directory that passes the checks leads there behind a slash as well, if it has
room for one. -/
theorem locate_withSlash_eq_ok_iff {directory : Bytes} {p : Place}
    (h : checkDirectory v directory = .ok place) : v.locate (withSlash directory) = .ok p ↔
      ((withSlash directory).length < Volume.maxPath ∨ 0 ∈ directory) ∧ p = place := by
  obtain ⟨hlocate, mode, hmode, -⟩ := checkDirectory_eq_ok_iff.1 h
  have hdir : v.isDirectory place = true := Volume.isDirectory_eq_true_iff.2 ⟨mode, _, hmode⟩
  by_cases h0 : 0 ∈ directory
  · -- What is read of the path ends before the slash.
    have hsame : v.locate (withSlash directory) = v.locate directory := by
      unfold withSlash
      split
      · rfl
      · rw [Volume.locate, Volume.locate, Volume.parse_append_of_mem h0]
    simp [hsame, hlocate, h0, eq_comm]
  · obtain ⟨names, slashed, hparse, hwalk, -⟩ := Volume.locate_eq_ok_iff.1 hlocate
    obtain ⟨-, -, rfl, -⟩ := (Volume.parse_eq_ok_iff h0).1 hparse
    rw [Volume.locate_base_eq_ok_iff (mt zero_mem_withSlash.1 h0) (getLast?_withSlash directory),
      splitNames_withSlash, hwalk]
    simp only [h0, or_false, Except.ok.injEq]
    exact and_congr_right fun _ => ⟨fun h => h.1.symm, fun h => ⟨h.symm, h ▸ hdir⟩⟩

/-- A directory that passes the checks can be listed. -/
theorem openDirectory_withSlash {directory : Bytes} (h : checkDirectory v directory = .ok place) :
    v.openDirectory (withSlash directory) = v.locate (withSlash directory) := by
  obtain ⟨-, mode, hmode, hread, -⟩ := checkDirectory_eq_ok_iff.1 h
  rw [Volume.openDirectory]
  cases hlocate : v.locate (withSlash directory) with
  | error number => rfl
  | ok p =>
    obtain rfl := ((locate_withSlash_eq_ok_iff h).1 hlocate).2
    have hdir : v.isDirectory p = true := Volume.isDirectory_eq_true_iff.2 ⟨mode, _, hmode⟩
    have hallows : v.allowsAt .read p = true := by
      refine Volume.allowsAt_eq_true_iff.2 ⟨_, hmode, ?_⟩
      rw [Volume.allows, Bool.or_eq_true]
      exact .inr (bne_iff_ne.2 hread)
    change (if (!v.isDirectory p) = true then _ else _) = _
    rw [hdir, hallows]
    rfl

/-- The pair in an entry that is a file and may be read. -/
def entryPair? (v : Volume) (e : Entry) : Option KeyPair :=
  (v.readable? e).bind KeyFile.parse?

/-- A name in a directory that may be searched is read as the entry that it has there. -/
theorem readPair?_name {directory : Bytes} (hopen : v.locate (withSlash directory) = .ok place)
    (h : 0 ∉ directory) (hname : Volume.ProperName name)
    (hlen : (withSlash directory ++ name).length < Volume.maxPath) :
    readPair? v (withSlash directory ++ name) =
      if v.allowsAt .search place then (v.entry? (place ++ [name])).bind (entryPair? v)
      else none := by
  rw [List.length_append] at hlen
  ext k
  simp only [readPair?, entryPair?, Option.bind_eq_some_iff, Option.ite_none_right_eq_some,
    Volume.content?_eq_some_iff, Volume.find_name_eq_ok_iff (mt zero_mem_withSlash.1 h)
      (getLast?_withSlash directory) hname hlen hopen]
  constructor
  · rintro ⟨content, ⟨-, e, ⟨hsearch, he⟩, hread⟩, hk⟩
    exact ⟨hsearch, e, he, content, hread, hk⟩
  · rintro ⟨hsearch, e, he, content, hread, hk⟩
    have hne : content ≠ [] := by
      rintro rfl
      cases hk
    exact ⟨content, ⟨hne, e, ⟨hsearch, he⟩, hread⟩, hk⟩

/-- Nothing is read in a directory that may not be searched. -/
example : readPair?
    { entries := [([ascii "ks"], .directory 0o600), ([ascii "ks", ascii "a.json"], .file 0o600
      (KeyFile.render { secret := .zero 32, address := .zero 32 }))] }
    (ascii "ks/a.json") = none := by
  decide

end Files

section Order

theorem checkDirectory_congr (h : v.entry? = w.entry?) (hp : v.privileged = w.privileged) :
    checkDirectory v = checkDirectory w := by
  funext directory
  simp only [checkDirectory, Volume.locate_congr h hp, h]

theorem loadFiles_congr (h : readPair? v = readPair? w) : ∀ (names : List Bytes) (s : KeyStore),
    loadFiles v s names = loadFiles w s names
  | [], _ => rfl
  | name :: names, s => by
    simp only [loadFiles, h, loadFiles_congr h names]

/-- The order of the entries does not count. -/
theorem load_perm {entries : List (Place × Entry)} (h : v.entries.Perm entries)
    (hnodup : (v.entries.map Prod.fst).Nodup) (s : KeyStore) :
    s.load v = s.load { v with entries } := by
  have hentry : v.entry? = Volume.entry? { v with entries } := Volume.entry?_perm h hnodup
  have hread : readPair? v = readPair? { v with entries } := by
    funext file
    rw [readPair?, readPair?, Volume.content?_congr hentry rfl]
  have hfiles : keyFiles v = keyFiles { v with entries } := funext (keyFiles_perm h)
  simp only [load, loadDirectory, checkDirectory_congr hentry rfl,
    Volume.openDirectory_congr hentry rfl, hfiles, loadFiles_congr hread]

end Order

section Answer

variable {p : Place} (hcheck : checkDirectory v s.directory = .ok p)
  (hopen : v.locate (withSlash s.directory) = .ok place)

include hcheck hopen

theorem load_eq : s.load v = loadFiles v s.opened (keyFiles v place) :=
  load_of_listed hcheck ((openDirectory_withSlash hcheck).trans hopen)

theorem answer_load : (s.load v).answer =
    match badFile? v (withSlash s.directory) (keyFiles v place) with
    | none => .ok ()
    | some name => .error (.keyFileInvalid (withSlash s.directory ++ name)) := by
  rw [load_eq hcheck hopen]
  exact answer_loadFiles (keyFiles v place) s.opened

theorem errors_load : (s.load v).after.errors =
    match badFile? v (withSlash s.directory) (keyFiles v place) with
    | none => .clear
    | some name => .ofFault (.keyFileInvalid (withSlash s.directory ++ name)) := by
  rw [load_eq hcheck hopen]
  exact errors_loadFiles (keyFiles v place) s.opened

theorem load_holds (hs : s.Indexed) : (s.load v).after.Holds
    (match badFile? v (withSlash s.directory) (keyFiles v place) with
      | none => filePairs v (withSlash s.directory) (keyFiles v place)
      | some _ => []) := by
  rw [load_eq hcheck hopen]
  exact loadFiles_holds hs.opened_holds

theorem directory_load : (s.load v).after.directory = withSlash s.directory := by
  rw [load_eq hcheck hopen]
  exact directory_loadFiles (keyFiles v place) s.opened

end Answer

/-- What loading the directory at a place comes to. -/
structure Loaded (s : KeyStore) (v : Volume) (place : Place) : Prop where
  mem_keyFiles : ∀ name, name ∈ keyFiles v place ↔
    (v.entry? (place ++ [name])).isSome = true ∧ 5 < name.length ∧ ascii ".json" <:+ name
  ascending : (keyFiles v place).Pairwise (· ≤ ·)
  readPair?_eq : ∀ name, 0 ∉ s.directory → Volume.ProperName name →
    (withSlash s.directory ++ name).length < Volume.maxPath →
      readPair? v (withSlash s.directory ++ name) =
        if v.allowsAt .search place then (v.entry? (place ++ [name])).bind (entryPair? v) else none
  ok_iff : (s.load v).answer = .ok () ↔
    ∀ name ∈ keyFiles v place, (readPair? v (withSlash s.directory ++ name)).isSome = true
  held : (s.load v).answer = .ok () →
    let ks := filePairs v (withSlash s.directory) (keyFiles v place)
    (s.load v).after.toList = firstPairs ks ∧
      (∀ a, (s.load v).after.find? a = ks.find? (·.address == a) ∧
        (s.load v).after.signer? a = (ks.find? (·.address == a)).map KeyPair.signer) ∧
      (s.load v).after.size = (ks.map (·.address)).toFinset.card
  rejected : ∀ f, (s.load v).answer = .error f →
    (∃ name, badFile? v (withSlash s.directory) (keyFiles v place) = some name ∧
      f = .keyFileInvalid (withSlash s.directory ++ name)) ∧
    (s.load v).after.errors = .ofFault f ∧ (s.load v).after.toList = [] ∧
      (s.load v).after.size = 0 ∧ ∀ a, (s.load v).after.find? a = none
  any_order : ∀ entries, v.entries.Perm entries → (v.entries.map Prod.fst).Nodup →
    s.load v = s.load { v with entries }

theorem loaded_of_listed {p : Place} (hs : s.Indexed)
    (hcheck : checkDirectory v s.directory = .ok p)
    (hopen : v.locate (withSlash s.directory) = .ok place) : s.Loaded v place := by
  have hanswer := answer_load hcheck hopen
  have hholds := load_holds hcheck hopen hs
  have herrors := errors_load hcheck hopen
  constructor
  case mem_keyFiles => exact fun name => KeyStore.mem_keyFiles
  case ascending => exact pairwise_keyFiles v place
  case readPair?_eq => exact fun name h hname hlen => readPair?_name hopen h hname hlen
  case any_order => exact fun entries h hnodup => load_perm h hnodup s
  case ok_iff =>
    rw [hanswer, ← badFile?_eq_none_iff]
    cases badFile? v (withSlash s.directory) (keyFiles v place) <;> simp
  case held =>
    intro hok
    cases hbad : badFile? v (withSlash s.directory) (keyFiles v place) with
    | some name =>
      rw [hanswer, hbad] at hok
      cases hok
    | none =>
      rw [hbad] at hholds
      exact ⟨hholds.toList_eq, fun a => ⟨hholds.find?_eq a, by rw [signer?, hholds.find?_eq]⟩,
        hholds.size_eq⟩
  case rejected =>
    intro f hf
    cases hbad : badFile? v (withSlash s.directory) (keyFiles v place) with
    | none =>
      rw [hanswer, hbad] at hf
      cases hf
    | some name =>
      rw [hbad] at hholds hanswer herrors
      obtain rfl : f = .keyFileInvalid (withSlash s.directory ++ name) :=
        Except.error.inj (hf.symm.trans hanswer)
      exact ⟨⟨name, rfl, rfl⟩, herrors, hholds.toList_eq, hholds.size_eq, hholds.find?_eq⟩

/-- Whatever was held before, a directory that passes the checks is loaded when it can be listed. It
cannot if its path has no room for a slash, and then nothing is held. -/
theorem load_loaded (hs : s.Reached) (hcheck : checkDirectory v s.directory = .ok place) :
    (∀ p, v.locate (withSlash s.directory) = .ok p → p = place ∧ s.Loaded v place) ∧
      ∀ number, v.locate (withSlash s.directory) = .error number →
        Volume.maxPath ≤ (withSlash s.directory).length ∧
          (s.load v).answer = .error (.directoryNotOpened number) ∧ (s.load v).after.Holds [] := by
  constructor
  · intro p hopen
    obtain rfl := ((locate_withSlash_eq_ok_iff hcheck).1 hopen).2
    exact ⟨rfl, loaded_of_listed hs.indexed hcheck hopen⟩
  · intro number hclosed
    rw [load_of_closed hcheck ((openDirectory_withSlash hcheck).trans hclosed)]
    refine ⟨Nat.le_of_not_lt fun hlen => ?_, rfl, hs.indexed.opened_holds.withErrors _⟩
    rw [(locate_withSlash_eq_ok_iff hcheck).2 ⟨.inl hlen, rfl⟩] at hclosed
    cases hclosed

/-- A pair whose halves begin with two bytes. -/
def samplePair (secret address : UInt8) : KeyPair where
  secret := .padded 32 [secret]
  address := .padded 32 [address]

/-- A directory of three files, of which the first two hold one address. -/
def sampleVolume : Volume where
  entries :=
    [([ascii "ks"], .directory 0o700),
      ([ascii "ks", ascii "c.json"], .file 0o600 (KeyFile.render (samplePair 3 4))),
      ([ascii "ks", ascii "b.json"], .file 0o600 (KeyFile.render (samplePair 2 5))),
      ([ascii "ks", ascii "note"], .file 0o600 (ascii "[]")),
      ([ascii "ks", ascii "a.json"], .file 0o600 (KeyFile.render (samplePair 1 5)))]

theorem keyFiles_sampleVolume : keyFiles sampleVolume [ascii "ks"] =
    [ascii "a.json", ascii "b.json", ascii "c.json"] :=
  keyFiles_eq (by decide) (by decide)

theorem reached_setDirectory (directory : Bytes) :
    (KeyStore.empty.setDirectory directory).Reached :=
  .call .empty .empty (.setDirectory directory)

theorem checkDirectory_sampleVolume :
    checkDirectory sampleVolume (KeyStore.empty.setDirectory (ascii "ks")).directory =
      .ok [ascii "ks"] := by
  decide

theorem locate_sampleVolume :
    sampleVolume.locate (withSlash (KeyStore.empty.setDirectory (ascii "ks")).directory) =
      .ok [ascii "ks"] := by
  decide

theorem answer_load_sampleVolume :
    ((KeyStore.empty.setDirectory (ascii "ks")).load sampleVolume).answer = .ok () := by
  rw [answer_load checkDirectory_sampleVolume locate_sampleVolume, badFile?_eq_none_iff.2]
  rw [keyFiles_sampleVolume]
  decide

theorem toList_load_sampleVolume :
    ((KeyStore.empty.setDirectory (ascii "ks")).load sampleVolume).after.toList =
      [samplePair 1 5, samplePair 3 4] := by
  have hholds := load_holds checkDirectory_sampleVolume locate_sampleVolume
    (reached_setDirectory (ascii "ks")).indexed
  have hbad : badFile? sampleVolume (withSlash (KeyStore.empty.setDirectory (ascii "ks")).directory)
      (keyFiles sampleVolume [ascii "ks"]) = none := by
    rw [keyFiles_sampleVolume]
    decide
  rw [hbad, keyFiles_sampleVolume] at hholds
  exact hholds.toList_eq.trans (by decide)

theorem load_loaded_sampleVolume :
    let s := KeyStore.empty.setDirectory (ascii "ks")
    s.Loaded sampleVolume [ascii "ks"] ∧
      (s.load sampleVolume).after.toList = [samplePair 1 5, samplePair 3 4] :=
  ⟨((load_loaded (reached_setDirectory (ascii "ks")) checkDirectory_sampleVolume).1 _
    locate_sampleVolume).2, toList_load_sampleVolume⟩

end OfflineTx.KeyStore
