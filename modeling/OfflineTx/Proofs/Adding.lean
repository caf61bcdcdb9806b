import OfflineTx.Proofs.Base58
import OfflineTx.Proofs.Loading

/-!
# What is added is found again

The file of a new pair has a name that no entry of the directory has, is a key file and holds the
pair. So a store that was loaded and its directory still hold the same pairs after one more was
added (`Mirrors.add`), and a call that fails changes neither (`answered_call`), unless the system
does not take all of the file. A file that was only begun then keeps every store from loading the
directory, and one that is complete is loaded although the call failed (`leftover_call`). After any
calls whose files are taken a new store finds in the directory what the old one finds
(`calls_found_again`).
-/

namespace OfflineTx.KeyStore

variable {s : KeyStore} {v w : Volume} {place : Place} {k : KeyPair} {directory name : Bytes}

section FileName

/-- The name of the file of a pair. -/
def fileName (a : Address) : Bytes :=
  a.toBase58 ++ extension

theorem keyFile_eq (s : KeyStore) (a : Address) : s.keyFile a = s.directory ++ fileName a := by
  rw [keyFile, fileName, List.append_assoc]

theorem length_toBase58 (a : Address) : 32 ≤ a.toBase58.length ∧ a.toBase58.length ≤ 45 := by
  rw [FixedBytes.toBase58_eq (by decide)]
  have hle := Base58.length_textOf_le a.bytes
  have hge := Base58.length_le_textOf a.bytes
  rw [a.length_bytes] at hle hge
  exact ⟨hge, hle.trans (by decide)⟩

theorem mem_fileName {a : Address} {b : UInt8} (h : b ∈ fileName a) :
    b ∈ Base58.alphabet ∨ b ∈ extension := by
  rw [fileName, FixedBytes.toBase58_eq (by decide), List.mem_append] at h
  exact h.imp (Base58.textOf_alphabet a.bytes b) id

theorem length_fileName (a : Address) : 37 ≤ (fileName a).length ∧ (fileName a).length ≤ 50 := by
  obtain ⟨hge, hle⟩ := length_toBase58 a
  have hext : extension.length = 5 := rfl
  rw [fileName, List.length_append, hext]
  omega

theorem properName_fileName (a : Address) : Volume.ProperName (fileName a) where
  ne_nil h := by
    have hlen := (length_fileName a).1
    rw [h] at hlen
    cases hlen
  slash_not_mem h := absurd (mem_fileName h) (by decide)
  zero_not_mem h := absurd (mem_fileName h) (by decide)
  ne_point h := by
    have hlen := (length_fileName a).1
    rw [h] at hlen
    exact absurd hlen (by decide)
  ne_points h := by
    have hlen := (length_fileName a).1
    rw [h] at hlen
    exact absurd hlen (by decide)
  length_le := (length_fileName a).2.trans (by decide)

theorem isKeyFile_fileName (a : Address) : isKeyFile (fileName a) = true :=
  isKeyFile_iff.2 ⟨by have := (length_fileName a).1; omega, List.suffix_append _ _⟩

end FileName

section Writing

/-- The file of a pair that was made is read as what it holds. -/
theorem readPair?_of_makeFile {file content : Bytes} {mode : Nat} (hmode : mode &&& 0o400 ≠ 0)
    (hmake : v.makeFile file mode content = .ok w) : readPair? w file = KeyFile.parse? content := by
  have hallows : w.allows .read (.file mode content) = true := by
    rw [Volume.allows, Bool.or_eq_true]
    exact .inr (bne_iff_ne.2 hmode)
  rw [readPair?, Volume.content?, Volume.find_makeFile hmake]
  cases content with
  | nil => simp [KeyFile.parse?, KeyFile.skipBlanks]
  | cons b content => simp [hallows]

theorem readPair?_of_keeps (h : v.Keeps w) {file : Bytes} (hk : readPair? v file = some k) :
    readPair? w file = some k := by
  obtain ⟨content, hcontent, hparse⟩ := Option.bind_eq_some_iff.1 hk
  rw [readPair?, h.content? hcontent, Option.bind_some, hparse]

theorem checkDirectory_of_extends (h : v.Extends w)
    (hcheck : checkDirectory v directory = .ok place) : checkDirectory w directory = .ok place := by
  obtain ⟨hlocate, mode, hmode, hbits⟩ := checkDirectory_eq_ok_iff.1 hcheck
  exact checkDirectory_eq_ok_iff.2 ⟨h.keeps.locate hlocate, mode, h.entry?_eq place _ hmode, hbits⟩

/-- Whether the file of an address can be made in a directory: its name fits the path and is not
taken, and the directory may be searched and written. -/
structure HasRoom (v : Volume) (directory : Bytes) (place : Place) (a : Address) : Prop where
  zero_not_mem : 0 ∉ directory
  length_lt : (withSlash directory ++ fileName a).length < Volume.maxPath
  search : v.allowsAt .search place = true
  write : v.allowsAt .write place = true
  entry?_eq : v.entry? (place ++ [fileName a]) = none

/-- In a directory that can be listed, a pair is written to a new entry, if at all. -/
theorem makeFile_fileName_eq_ok_iff {a : Address} {mode : Nat} {content : Bytes}
    (hopen : v.locate (withSlash directory) = .ok place) :
    v.makeFile (withSlash directory ++ fileName a) mode content = .ok w ↔
      HasRoom v directory place a ∧ w = v.put (place ++ [fileName a]) (.file mode content) := by
  rw [Volume.makeFile_name_eq_ok_iff (getLast?_withSlash directory) (properName_fileName a) hopen,
    zero_mem_withSlash, ← List.length_append]
  constructor
  · rintro ⟨h0, hlen, hsearch, hwrite, hnone, rfl⟩
    exact ⟨⟨h0, hlen, hsearch, hwrite, hnone⟩, rfl⟩
  · rintro ⟨⟨h0, hlen, hsearch, hwrite, hnone⟩, rfl⟩
    exact ⟨h0, hlen, hsearch, hwrite, hnone, rfl⟩

/-- A new key file is one more, and the others stay in their order. -/
theorem keyFiles_put {e : Entry} (hname : isKeyFile name = true)
    (hnone : v.entry? (place ++ [name]) = none) :
    name ∈ keyFiles (v.put (place ++ [name]) e) place ∧
      (keyFiles (v.put (place ++ [name]) e) place).filter (· != name) = keyFiles v place := by
  have hnames := Volume.names_put v place name e
  constructor
  · rw [keyFiles, List.mem_mergeSort, hnames]
    simp [hname]
  · have hold : ∀ n ∈ (v.names place).filter isKeyFile, (n != name) = true := fun n hn =>
      bne_iff_ne.2 fun h => Volume.not_mem_names hnone (h ▸ List.mem_of_mem_filter hn)
    refine (keyFiles_eq ((pairwise_keyFiles _ _).filter _) ?_).symm
    refine .trans (.of_eq ?_) ((List.mergeSort_perm _ _).symm.filter _)
    rw [hnames, List.filter_append, List.filter_append, List.filter_eq_self.2 hold]
    simp [hname]

end Writing

section Mirrors

/-- The pairs in the key files of the directory at a place. -/
def directoryPairs (v : Volume) (directory : Bytes) (place : Place) : List KeyPair :=
  filePairs v (withSlash directory) (keyFiles v place)

/-- The store was loaded from the directory at the place, and could be loaded again. -/
structure Stands (s : KeyStore) (v : Volume) (directory : Bytes) (place : Place) : Prop where
  indexed : s.Indexed
  directory_eq : s.directory = withSlash directory
  checked : checkDirectory v directory = .ok place
  listed : v.locate (withSlash directory) = .ok place

/-- The store and its directory hold the same pairs. -/
structure Mirrors (s : KeyStore) (v : Volume) (directory : Bytes) (place : Place) : Prop
    extends s.Stands v directory place where
  readable : ∀ name ∈ keyFiles v place,
    (readPair? v (withSlash directory ++ name)).isSome = true
  find?_eq : ∀ a, s.find? a = (directoryPairs v directory place).find? (·.address == a)

theorem Stands.of_extends {t : KeyStore} (h : s.Stands v directory place) (hv : v.Extends w)
    (ht : t.Indexed) (hdirectory : t.directory = s.directory) : t.Stands w directory place where
  indexed := ht
  directory_eq := hdirectory.trans h.directory_eq
  checked := checkDirectory_of_extends hv h.checked
  listed := hv.keeps.locate h.listed

/-- A store that is given the directory loads what is at the place. -/
theorem Stands.load_of {t : KeyStore} (h : s.Stands v directory place)
    (hdirectory : t.directory = directory ∨ t.directory = withSlash directory) :
    withSlash t.directory = withSlash directory ∧ checkDirectory v t.directory = .ok place ∧
      v.locate (withSlash t.directory) = .ok place := by
  have hslash : withSlash t.directory = withSlash directory := withSlash_eq hdirectory
  refine ⟨hslash, ?_, by rw [hslash, h.listed]⟩
  rcases hdirectory with hd | hd
  · rw [hd, h.checked]
  · rw [hd, checkDirectory_eq_ok_iff]
    exact ⟨h.listed, (checkDirectory_eq_ok_iff.1 h.checked).2⟩

theorem load_mirrors (hs : s.Indexed) (hload : (s.load v).answer = .ok ()) :
    ∃ place, (s.load v).after.Mirrors v s.directory place := by
  cases hcheck : checkDirectory v s.directory with
  | error f =>
    rw [load_of_unfit hcheck] at hload
    cases hload
  | ok place =>
    cases hopen : v.locate (withSlash s.directory) with
    | error number =>
      rw [load_of_closed hcheck ((openDirectory_withSlash hcheck).trans hopen)] at hload
      cases hload
    | ok p =>
      obtain rfl := ((locate_withSlash_eq_ok_iff hcheck).1 hopen).2
      have hanswer := answer_load hcheck hopen
      have hholds := load_holds hcheck hopen hs
      cases hbad : badFile? v (withSlash s.directory) (keyFiles v p) with
      | some name =>
        rw [hbad, hload] at hanswer
        cases hanswer
      | none =>
        rw [hbad] at hholds
        exact ⟨p, ⟨hholds.indexed, directory_load hcheck hopen, hcheck, hopen⟩,
          badFile?_eq_none_iff.1 hbad, hholds.find?_eq⟩

/-- A store that loads the directory finds what is found. -/
theorem Mirrors.load {t : KeyStore} (h : s.Mirrors v directory place) (ht : t.Indexed)
    (hdirectory : t.directory = directory ∨ t.directory = withSlash directory) :
    (t.load v).answer = .ok () ∧ ∀ a, (t.load v).after.find? a = s.find? a := by
  obtain ⟨hslash, hcheck, hopen⟩ := h.load_of hdirectory
  have hbad : badFile? v (withSlash t.directory) (keyFiles v place) = none := by
    rw [hslash, badFile?_eq_none_iff]
    exact h.readable
  have hanswer := answer_load hcheck hopen
  have hholds := load_holds hcheck hopen ht
  rw [hbad] at hanswer hholds
  refine ⟨hanswer, fun a => ?_⟩
  rw [h.find?_eq, hholds.find?_eq, hslash, directoryPairs]

/-- A name whose pair is not looked for can be left out. -/
theorem find?_filterMap_filter {f : Bytes → Option KeyPair} {p : KeyPair → Bool}
    (hf : f name = some k) (hk : p k = false) (names : List Bytes) :
    ((names.filter (· != name)).filterMap f).find? p = (names.filterMap f).find? p := by
  rw [List.find?_filterMap, List.find?_filter, List.find?_filterMap]
  congr 2
  funext other
  by_cases hother : other = name
  · subst hother
    simp [hf, hk]
  · simp [hother]

/-- Reading one more file, whose pair is new, finds this pair beside what the other files give. -/
theorem find?_filterMap_insert {f g : Bytes → Option KeyPair} {names names' : List Bytes}
    (hmem : name ∈ names') (hrest : names'.filter (· != name) = names) (hname : g name = some k)
    (hold : ∀ other ∈ names, g other = f other)
    (hnew : (names.filterMap f).find? (·.address == k.address) = none) (a : Address) :
    (names'.filterMap g).find? (·.address == a) =
      if k.address = a then some k else (names.filterMap f).find? (·.address == a) := by
  have hsame : names.filterMap g = names.filterMap f := List.filterMap_congr hold
  split
  · rename_i ha
    subst ha
    have hk : k ∈ names'.filterMap g := List.mem_filterMap.2 ⟨name, hmem, hname⟩
    obtain ⟨k', hk'⟩ := Option.isSome_iff_exists.1
      (isSome_find?_address_iff.2 (List.mem_map_of_mem hk))
    obtain ⟨other, hother, hread⟩ := List.mem_filterMap.1 (List.mem_of_find?_eq_some hk')
    by_cases h : other = name
    · rw [hk', ← hread, h, hname]
    · -- No other file gives the address.
      have hmem' : other ∈ names := hrest ▸ List.mem_filter.2 ⟨hother, bne_iff_ne.2 h⟩
      have hk'' : k' ∈ names.filterMap f :=
        List.mem_filterMap.2 ⟨other, hmem', (hold other hmem').symm.trans hread⟩
      exact absurd (List.find?_some hk') (List.find?_eq_none.1 hnew k' hk'')
  · rename_i ha
    rw [← hsame, ← hrest, find?_filterMap_filter hname (by simpa using ha)]

section Made

variable {mode : Nat} {content : Bytes} (h : s.Mirrors v directory place)
  (hmake : v.makeFile (withSlash directory ++ fileName k.address) mode content = .ok w)

include h hmake

/-- A new key file is the only one that is read otherwise than before. -/
theorem Mirrors.keyFiles_of_makeFile : fileName k.address ∈ keyFiles w place ∧
    (keyFiles w place).filter (· != fileName k.address) = keyFiles v place ∧
      ∀ name ∈ keyFiles v place,
        readPair? w (withSlash directory ++ name) = readPair? v (withSlash directory ++ name) := by
  have hkeeps : v.Keeps w := (Volume.extends_makeFile hmake).keeps
  obtain ⟨hroom, hw⟩ := (makeFile_fileName_eq_ok_iff h.listed).1 hmake
  obtain ⟨hmem, hrest⟩ : fileName k.address ∈ keyFiles w place ∧
      (keyFiles w place).filter (· != fileName k.address) = keyFiles v place :=
    hw ▸ keyFiles_put (isKeyFile_fileName k.address) hroom.entry?_eq
  refine ⟨hmem, hrest, fun name hname => ?_⟩
  obtain ⟨k', hk'⟩ := Option.isSome_iff_exists.1 (h.readable name hname)
  rw [hk', readPair?_of_keeps hkeeps hk']

theorem Mirrors.readable_of_makeFile (hname : name ∈ keyFiles w place)
    (hne : name ≠ fileName k.address) :
    (readPair? w (withSlash directory ++ name)).isSome = true := by
  obtain ⟨-, hrest, hold⟩ := h.keyFiles_of_makeFile hmake
  have hname' : name ∈ keyFiles v place := hrest ▸ List.mem_filter.2 ⟨hname, bne_iff_ne.2 hne⟩
  rw [hold name hname']
  exact h.readable name hname'

/-- A store and its directory have one pair more when this is kept and its file is complete. -/
theorem Mirrors.insert (hmode : mode &&& 0o400 ≠ 0) (hcontent : content = KeyFile.render k)
    (hnew : s.find? k.address = none) : (s.insert k).Mirrors w directory place := by
  obtain ⟨hmem, hrest, hold⟩ := h.keyFiles_of_makeFile hmake
  have hread : readPair? w (withSlash directory ++ fileName k.address) = some k := by
    rw [readPair?_of_makeFile hmode hmake, hcontent, KeyFile.parse?_render]
  refine ⟨h.toStands.of_extends (Volume.extends_makeFile hmake) (h.indexed.insert hnew) rfl,
    fun name hname => ?_, fun a => ?_⟩
  · by_cases hne : name = fileName k.address
    · rw [hne, hread]
      rfl
    · exact h.readable_of_makeFile hmake hname hne
  · rw [h.indexed.find?_insert hnew, h.find?_eq]
    exact (find?_filterMap_insert hmem hrest hread hold ((h.find?_eq _).symm.trans hnew) a).symm

/-- A file without a pair is what every store stops at that loads the directory. -/
theorem Mirrors.load_of_incomplete {t : KeyStore} (hmode : mode &&& 0o400 ≠ 0)
    (hcontent : KeyFile.parse? content = none)
    (hdirectory : t.directory = directory ∨ t.directory = withSlash directory) :
    (t.load w).answer =
      .error (.keyFileInvalid (withSlash directory ++ fileName k.address)) := by
  obtain ⟨hmem, -, -⟩ := h.keyFiles_of_makeFile hmake
  have hread : readPair? w (withSlash directory ++ fileName k.address) = none :=
    (readPair?_of_makeFile hmode hmake).trans hcontent
  obtain ⟨hslash, hcheck, hopen⟩ := (h.toStands.of_extends (Volume.extends_makeFile hmake) h.indexed
    rfl).load_of hdirectory
  have hanswer := answer_load hcheck hopen
  rw [hslash] at hanswer
  cases hbad : badFile? w (withSlash directory) (keyFiles w place) with
  | none =>
    have hsome := badFile?_eq_none_iff.1 hbad _ hmem
    rw [hread] at hsome
    cases hsome
  | some name =>
    have hname : name = fileName k.address := by
      by_contra hne
      have hsome := h.readable_of_makeFile hmake (List.mem_of_find?_eq_some hbad) hne
      have hnone := List.find?_some hbad
      simp only [Option.isNone_iff_eq_none] at hnone
      rw [hnone] at hsome
      cases hsome
    rw [hanswer, hbad, hname]

end Made

theorem Mirrors.withErrors (h : s.Mirrors v directory place) (errors : ErrorState) :
    ({ s with errors } : KeyStore).Mirrors v directory place :=
  ⟨h.toStands.of_extends (Volume.extends_refl v) (h.indexed.withErrors errors) rfl, h.readable,
    h.find?_eq⟩

theorem Mirrors.add {writing : Writing} (h : s.Mirrors v directory place)
    (hcompletes : writing.Completes k) :
    (s.add v k writing).after.1.Mirrors (s.add v k writing).after.2 directory place := by
  obtain ⟨-, -, hafter⟩ | ⟨hnew, ⟨number, w, hwrite, -, hafter⟩ | ⟨w, hwrite, -, hafter⟩⟩ :=
    add_cases s v k writing
  · exact hafter ▸ h.withErrors _
  · rw [hafter, eq_of_writeKeyFile_eq_error hcompletes hwrite]
    exact h.withErrors _
  · have hmake := (writeKeyFile_eq_ok_iff.1 hwrite).2
    rw [keyFile_eq, h.directory_eq] at hmake
    rw [hafter]
    exact (h.withErrors .clear).insert hmake (by decide) rfl hnew

theorem Stands.add (h : s.Stands v directory place) (k : KeyPair) (writing : Writing) :
    (s.add v k writing).after.1.Stands (s.add v k writing).after.2 directory place :=
  h.of_extends (extends_add s v k writing) (h.indexed.add v k writing)
    (directory_add s v k writing)

end Mirrors

section Calls

/-- Whether the call adds a pair, or tries to. -/
def Call.adds : Call → Bool
  | .add .. => true
  | .generate .. => true
  | _ => false

/-- The pair that a call adds. -/
def Call.pair? : Call → Option KeyPair
  | .add k _ => some k
  | .generate secret? _ => secret?.map .ofSecret
  | _ => none

/-- How the system takes the file of a pair. -/
def Call.writing : Call → Writing
  | .add _ writing => writing
  | .generate _ writing => writing
  | _ => .complete

/-- The system takes all that the call writes. -/
def Call.Completes (c : Call) : Prop :=
  ∀ k, c.pair? = some k → c.writing.Completes k

variable {c : Call} {cs : List Call} {a : Address} {writing : Writing}

theorem call_of_pair? (h : c.pair? = some k) :
    (s.call v c).answer = (s.add v k c.writing).answer ∧
      (s.call v c).after = (s.add v k c.writing).after := by
  cases c with
  | add k' writing => cases h; exact ⟨rfl, rfl⟩
  | generate secret? writing =>
    obtain ⟨secret, rfl, rfl⟩ := Option.map_eq_some_iff.1 h
    refine ⟨?_, rfl⟩
    change ((s.add v (.ofSecret secret) writing).answer.map _).map _ =
      (s.add v (.ofSecret secret) writing).answer
    cases (s.add v (.ofSecret secret) writing).answer <;> rfl
  | _ => cases h

/-- A call that adds without a pair could not make one. -/
theorem call_of_pair?_eq_none (hadds : c.adds = true) (h : c.pair? = none) :
    (s.call v c).answer = .error .keyNotGenerated ∧
      (s.call v c).after = ({ s with errors := .ofFault .keyNotGenerated }, v) := by
  cases c with
  | generate secret? writing =>
    cases secret? with
    | none => exact ⟨rfl, rfl⟩
    | some secret => cases h
  | add k writing => cases h
  | _ => cases hadds

/-- The store and the volume after a row of calls. -/
def calls (s : KeyStore) (v : Volume) (cs : List Call) : KeyStore × Volume :=
  cs.foldl (fun at' c => (at'.1.call at'.2 c).after) (s, v)

theorem calls_cons (s : KeyStore) (v : Volume) (c : Call) (cs : List Call) :
    s.calls v (c :: cs) = (s.call v c).after.1.calls (s.call v c).after.2 cs := rfl

theorem calls_append (s : KeyStore) (v : Volume) (cs cs' : List Call) :
    s.calls v (cs ++ cs') = (s.calls v cs).1.calls (s.calls v cs).2 cs' :=
  List.foldl_append

theorem Indexed.calls : ∀ {cs : List Call} {s : KeyStore} {v : Volume}, s.Indexed →
    (s.calls v cs).1.Indexed
  | [], _, _, h => h
  | c :: _, _, v, h => (h.call v c).calls

theorem Mirrors.call (h : s.Mirrors v directory place) (hadds : c.adds = true)
    (hcompletes : c.Completes) :
    (s.call v c).after.1.Mirrors (s.call v c).after.2 directory place := by
  cases hk : c.pair? with
  | none =>
    rw [(call_of_pair?_eq_none hadds hk).2]
    exact h.withErrors _
  | some k =>
    rw [(call_of_pair? hk).2]
    exact h.add (hcompletes k hk)

theorem Mirrors.calls : ∀ {cs : List Call} {s : KeyStore} {v : Volume},
    s.Mirrors v directory place → (∀ c ∈ cs, c.adds = true) → (∀ c ∈ cs, c.Completes) →
      (s.calls v cs).1.Mirrors (s.calls v cs).2 directory place
  | [], _, _, h, _, _ => h
  | c :: cs, s, v, h, hadds, hcompletes => by
    rw [calls_cons]
    exact (h.call (hadds c List.mem_cons_self) (hcompletes c List.mem_cons_self)).calls
      (fun c' hc' => hadds c' (List.mem_cons_of_mem _ hc'))
      fun c' hc' => hcompletes c' (List.mem_cons_of_mem _ hc')

theorem Stands.call (h : s.Stands v directory place) (hadds : c.adds = true) :
    (s.call v c).after.1.Stands (s.call v c).after.2 directory place := by
  cases hk : c.pair? with
  | none =>
    rw [(call_of_pair?_eq_none hadds hk).2]
    exact h.of_extends (Volume.extends_refl v) (h.indexed.withErrors _) rfl
  | some k =>
    rw [(call_of_pair? hk).2]
    exact h.add k c.writing

theorem Stands.calls : ∀ {cs : List Call} {s : KeyStore} {v : Volume},
    s.Stands v directory place → (∀ c ∈ cs, c.adds = true) →
      (s.calls v cs).1.Stands (s.calls v cs).2 directory place
  | [], _, _, h, _ => h
  | c :: cs, s, v, h, hadds => by
    rw [calls_cons]
    exact (h.call (hadds c List.mem_cons_self)).calls
      fun c' hc' => hadds c' (List.mem_cons_of_mem _ hc')

/-- What is held after a pair was added well. -/
theorem find?_of_add (h : s.Indexed) (hok : (s.add v k writing).answer = .ok ()) (a : Address) :
    (s.add v k writing).after.1.find? a =
      if s.find? k.address = none ∧ k.address = a then some k else s.find? a := by
  obtain ⟨hheld, -, hafter⟩ | ⟨hnew, ⟨number, w, -, herror, -⟩ | ⟨w, -, -, hafter⟩⟩ :=
    add_cases s v k writing
  · have hne : s.find? k.address ≠ none := Option.isSome_iff_ne_none.1 hheld
    rw [hafter, if_neg fun hnone => hne hnone.1]
    rfl
  · rw [hok] at herror
    cases herror
  · rw [hafter, (h.withErrors .clear).find?_insert hnew]
    simp only [hnew, true_and]
    rfl

/-- Of a pair that is not held the file is made if there is room for it, whatever the system takes
of it. -/
theorem volume_add_of_hasRoom (h : s.Stands v directory place) (hnew : s.find? k.address = none)
    (hroom : HasRoom v directory place k.address) :
    let left := writing.left (KeyFile.render k)
    (s.add v k writing).after.2 =
      v.put (place ++ [fileName k.address]) (.file left.mode left.content) := by
  intro left
  rw [volume_add, hnew]
  refine volume_writeKeyFile ?_
  rw [keyFile_eq, h.directory_eq]
  exact (makeFile_fileName_eq_ok_iff h.listed).2 ⟨hroom, rfl⟩

/-- A pair that is not added leaves the store as it was. -/
theorem store_add_of_error {f : Fault} (herror : (s.add v k writing).answer = .error f) :
    (s.add v k writing).after.1 = { s with errors := .ofFault f } := by
  obtain ⟨-, hok, -⟩ | ⟨-, ⟨number, w, -, herror', hafter⟩ | ⟨w, -, hok, -⟩⟩ :=
    add_cases s v k writing
  · rw [hok] at herror
    cases herror
  · rw [hafter, ← Except.error.inj (herror.symm.trans herror')]
  · rw [hok] at herror
    cases herror

/-- It leaves the volume as it was as well, unless there was room for its file and the system did
not take all of it. -/
theorem volume_add_of_error {f : Fault} (h : s.Stands v directory place)
    (herror : (s.add v k writing).answer = .error f) : (s.add v k writing).after.2 = v ∨
      HasRoom v directory place k.address ∧ ¬writing.Completes k := by
  obtain ⟨-, hok, -⟩ | ⟨-, ⟨number, w, hwrite, -, hafter⟩ | ⟨w, -, hok, -⟩⟩ :=
    add_cases s v k writing
  · rw [hok] at herror
    cases herror
  · obtain ⟨_, -, hsame⟩ | ⟨u, hmake, ⟨-, hsame⟩ | ⟨hfails, -⟩⟩ :=
      writeKeyFile_cases v (s.keyFile k.address) k writing
    · rw [hafter]
      exact .inl (Prod.mk.inj (hwrite.symm.trans hsame)).2
    · cases hwrite.symm.trans hsame
    · rw [keyFile_eq, h.directory_eq] at hmake
      exact .inr ⟨((makeFile_fileName_eq_ok_iff h.listed).1 hmake).1, hfails⟩
  · rw [hok] at herror
    cases herror

theorem find?_call {held : KeyPair} (h : s.Indexed) (hadds : c.adds = true)
    (ha : s.find? a = some held) : (s.call v c).after.1.find? a = some held := by
  cases hk : c.pair? with
  | none =>
    rw [(call_of_pair?_eq_none hadds hk).2]
    exact ha
  | some k =>
    rw [(call_of_pair? hk).2]
    cases hanswer : (s.add v k c.writing).answer with
    | error f =>
      rw [store_add_of_error hanswer]
      exact ha
    | ok _ =>
      rw [find?_of_add h hanswer, if_neg, ha]
      rintro ⟨hnone, rfl⟩
      cases ha.symm.trans hnone

/-- What is found is found after more calls that add. -/
theorem find?_calls {held : KeyPair} : ∀ {cs : List Call} {s : KeyStore} {v : Volume}, s.Indexed →
    (∀ c ∈ cs, c.adds = true) → s.find? a = some held → (s.calls v cs).1.find? a = some held
  | [], _, _, _, _, ha => ha
  | c :: cs, s, v, h, hadds, ha => by
    rw [calls_cons]
    exact find?_calls (h.call v c) (fun c' hc' => hadds c' (List.mem_cons_of_mem _ hc'))
      (find?_call h (hadds c List.mem_cons_self) ha)

end Calls

section Answers

variable {c : Call} {cs : List Call} {writing : Writing}

/-- What comes of a call that adds to a store that was loaded from the directory at a place. -/
structure Answered (s : KeyStore) (v : Volume) (directory : Bytes) (place : Place) (c : Call) :
    Prop where
  ok_iff : (s.call v c).answer = .ok () ↔ ∃ k, c.pair? = some k ∧
    ((s.find? k.address).isSome = true ∨
      c.writing.Completes k ∧ HasRoom v directory place k.address)
  found : ∀ k, c.pair? = some k → (s.call v c).answer = .ok () → ∀ a,
    (s.call v c).after.1.find? a =
      if s.find? k.address = none ∧ k.address = a then some k else s.find? a
  kept : ∀ f, (s.call v c).answer = .error f →
    (s.call v c).after.1 = { s with errors := .ofFault f } ∧
      ((s.call v c).after.2 = v ∨ ∃ k, c.pair? = some k ∧
        HasRoom v directory place k.address ∧ ¬c.writing.Completes k)
  written : ∀ k, c.pair? = some k → s.find? k.address = none → HasRoom v directory place k.address →
    let left := c.writing.left (KeyFile.render k)
    (s.call v c).after.2 =
      v.put (place ++ [fileName k.address]) (.file left.mode left.content)

/-- A pair is added unless its file cannot be made or is not taken. -/
theorem answer_add_eq_ok_iff (h : s.Stands v directory place) :
    (s.add v k writing).answer = .ok () ↔ (s.find? k.address).isSome = true ∨
      writing.Completes k ∧ HasRoom v directory place k.address := by
  have hfile : s.keyFile k.address = withSlash directory ++ fileName k.address := by
    rw [keyFile_eq, h.directory_eq]
  obtain ⟨hheld, hok, -⟩ | ⟨hnew, ⟨number, w, hwrite, herror, -⟩ | ⟨w, hwrite, hok, -⟩⟩ :=
    add_cases s v k writing
  · exact ⟨fun _ => .inl hheld, fun _ => hok⟩
  · rw [herror, hnew]
    refine ⟨nofun, fun hroom => ?_⟩
    obtain ⟨hcompletes, hroom⟩ := hroom.resolve_left nofun
    have hmake : v.makeFile (s.keyFile k.address) keyFileMode (KeyFile.render k) = .ok _ :=
      hfile ▸ (makeFile_fileName_eq_ok_iff h.listed).2 ⟨hroom, rfl⟩
    cases (writeKeyFile_eq_ok_iff.2 ⟨hcompletes, hmake⟩).symm.trans hwrite
  · obtain ⟨hcompletes, hmake⟩ := writeKeyFile_eq_ok_iff.1 hwrite
    rw [hfile] at hmake
    exact ⟨fun _ => .inr ⟨hcompletes, ((makeFile_fileName_eq_ok_iff h.listed).1 hmake).1⟩,
      fun _ => hok⟩

theorem answered_call (h : s.Stands v directory place) (hadds : c.adds = true) :
    s.Answered v directory place c := by
  cases hk : c.pair? with
  | none =>
    obtain ⟨hanswer, hafter⟩ := call_of_pair?_eq_none (s := s) (v := v) hadds hk
    constructor
    case ok_iff => simp [hanswer, hk]
    case found => simp [hk]
    case kept =>
      intro f hf
      rw [hafter, ← Except.error.inj (hanswer.symm.trans hf)]
      exact ⟨rfl, .inl rfl⟩
    case written => simp [hk]
  | some k =>
    obtain ⟨hanswer, hafter⟩ := call_of_pair? (s := s) (v := v) hk
    constructor
    case ok_iff =>
      rw [hanswer, answer_add_eq_ok_iff h, hk]
      simp
    case found =>
      intro k' hk' hok
      cases hk.symm.trans hk'
      rw [hafter]
      exact find?_of_add h.indexed (hanswer.symm.trans hok)
    case kept =>
      intro f hf
      have herror := hanswer.symm.trans hf
      rw [hafter]
      exact ⟨store_add_of_error herror,
        (volume_add_of_error h herror).imp_right fun hleft => ⟨k, hk, hleft⟩⟩
    case written =>
      intro k' hk' hnew hroom
      cases hk.symm.trans hk'
      rw [hafter]
      exact volume_add_of_hasRoom h hnew hroom

/-- What a store finds in the directory where the file of a pair was made but not completed: the
pair as well if all of the text was taken, and otherwise the file ends the loading. -/
structure Leftover (s t : KeyStore) (w : Volume) (k : KeyPair) (writing : Writing) : Prop where
  whole : (writing.left (KeyFile.render k)).content = KeyFile.render k →
    (t.load w).answer = .ok () ∧
      ∀ a, (t.load w).after.find? a = if k.address = a then some k else s.find? a
  begun : (writing.left (KeyFile.render k)).content ≠ KeyFile.render k →
    (t.load w).answer = .error (.keyFileInvalid (s.keyFile k.address))

theorem leftover_call {t : KeyStore} (h : s.Mirrors v directory place) (hk : c.pair? = some k)
    (hnew : s.find? k.address = none) (hroom : HasRoom v directory place k.address)
    (hfails : ¬c.writing.Completes k) (ht : t.Indexed)
    (hdirectory : t.directory = directory ∨ t.directory = withSlash directory) :
    s.Leftover t (s.call v c).after.2 k c.writing := by
  obtain ⟨content, number, hprefix, hleft⟩ := Writing.left_of_not_completes hfails
  have hmake : v.makeFile (withSlash directory ++ fileName k.address) newFileMode content =
      .ok (s.call v c).after.2 := by
    rw [(call_of_pair? hk).2, volume_add_of_hasRoom h.toStands hnew hroom, hleft]
    exact (makeFile_fileName_eq_ok_iff h.listed).2 ⟨hroom, rfl⟩
  constructor
  · intro hwhole
    rw [hleft] at hwhole
    have hinsert := h.insert hmake (by decide) hwhole hnew
    obtain ⟨hanswer, hfind⟩ := hinsert.load ht hdirectory
    exact ⟨hanswer, fun a => (hfind a).trans (h.indexed.find?_insert hnew a)⟩
  · intro hbegun
    rw [hleft] at hbegun
    rw [keyFile_eq, h.directory_eq]
    exact h.load_of_incomplete hmake (by decide) (KeyFile.parse?_of_prefix hprefix hbegun)
      hdirectory

end Answers

/-- Nine bytes are taken, and then the volume is full. -/
def tornWriting : Writing where
  writes := [.ok 9, .error 28]

theorem find?_load_sampleVolume :
    ((KeyStore.empty.setDirectory (ascii "ks")).load sampleVolume).after.find?
      (samplePair 7 8).address = none := by
  rw [((reached_setDirectory (ascii "ks")).indexed.load sampleVolume).find?_eq,
    toList_load_sampleVolume]
  decide

theorem hasRoom_sampleVolume :
    HasRoom sampleVolume (ascii "ks") [ascii "ks"] (samplePair 7 8).address where
  zero_not_mem := by decide
  length_lt := by decide +kernel
  search := by decide
  write := by decide
  entry?_eq := by decide +kernel

end OfflineTx.KeyStore
