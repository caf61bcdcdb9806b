import OfflineTx.Proofs.Adding

/-!
# Where key files are written

Since a directory was given, a store names it as it was given until it is loaded and passes the
checks, and with a slash from then on (`directory_calls`). The name of a key file is put right
behind this. So files of pairs that are added are in the directory only if it was loaded, or given
with a slash (`Placed.inside`). Otherwise the file is an entry beside the directory, whose name
begins as that of the directory does (`Placed.beside`).
-/

namespace OfflineTx.KeyStore

variable {s : KeyStore} {v w : Volume} {place : Place} {k : KeyPair} {directory : Bytes} {c : Call}
  {cs : List Call}

section Directory

/-- Whether the call loads a directory that passes the checks. -/
def Call.opens (s : KeyStore) (v : Volume) : Call → Bool
  | .load => (checkDirectory v s.directory).isOk
  | _ => false

/-- Whether one of the calls loads a directory that passes the checks. -/
def opens (s : KeyStore) (v : Volume) : List Call → Bool
  | [] => false
  | c :: cs => c.opens s v || opens (s.call v c).after.1 (s.call v c).after.2 cs

theorem directory_call (h : ∀ d, c ≠ .setDirectory d) : (s.call v c).after.1.directory =
    if c.opens s v then withSlash s.directory else s.directory := by
  cases c with
  | setDirectory d => exact absurd rfl (h d)
  | create =>
    simp only [call, create]
    split <;> rfl
  | load =>
    cases hcheck : checkDirectory v s.directory with
    | error f =>
      have hopens : Call.opens s v .load = false := by rw [Call.opens, hcheck]; rfl
      rw [hopens, call, load_of_unfit hcheck]
      rfl
    | ok p =>
      have hopens : Call.opens s v .load = true := by rw [Call.opens, hcheck]; rfl
      rw [hopens, call, if_pos rfl]
      cases hopen : v.locate (withSlash s.directory) with
      | error number =>
        rw [load_of_closed hcheck ((openDirectory_withSlash hcheck).trans hopen)]
        rfl
      | ok place => exact directory_load hcheck hopen
  | add k writing => exact directory_add s v k writing
  | generate secret? writing =>
    cases secret? with
    | none => rfl
    | some secret => exact directory_add s v (.ofSecret secret) writing

/-- How the store names a directory after calls that give no other. -/
theorem directory_calls : ∀ {cs : List Call} {s : KeyStore} {v : Volume} {opened : Bool},
    (∀ d, .setDirectory d ∉ cs) →
      s.directory = (if opened then withSlash directory else directory) →
      (s.calls v cs).1.directory =
        if opened || s.opens v cs then withSlash directory else directory
  | [], s, v, opened, _, h => by
    rw [opens, Bool.or_false]
    exact h
  | c :: cs, s, v, opened, hcs, h => by
    have hc : ∀ d, c ≠ .setDirectory d := fun d hd => hcs d (hd ▸ List.mem_cons_self)
    have hafter : (s.call v c).after.1.directory =
        if opened || c.opens s v then withSlash directory else directory := by
      rw [directory_call hc, h]
      cases opened <;> cases c.opens s v <;> simp [withSlash_withSlash]
    rw [calls_cons, opens, ← Bool.or_assoc]
    exact directory_calls (fun d hd => hcs d (List.mem_cons_of_mem _ hd)) hafter

end Directory

section Keeping

theorem keeps_create (s : KeyStore) (v : Volume) : v.Keeps (s.create v).after.2 := by
  unfold create
  cases hfind : v.find s.directory with
  | ok e =>
    cases hchange : v.changeMode s.directory privateMode with
    | ok w => exact Volume.keeps_changeMode (fun access => by cases access <;> decide) hchange
    | error number => exact Volume.keeps_refl v
  | error number =>
    cases hmake : v.makeDirectory s.directory privateMode with
    | ok w => exact (Volume.extends_makeDirectory hmake).keeps
    | error number => exact Volume.keeps_refl v

theorem keeps_call (s : KeyStore) (v : Volume) (c : Call) : v.Keeps (s.call v c).after.2 := by
  cases c with
  | setDirectory d => exact Volume.keeps_refl v
  | create => exact keeps_create s v
  | load => exact Volume.keeps_refl v
  | add k writing => exact (extends_add s v k writing).keeps
  | generate secret? writing =>
    cases secret? with
    | none => exact Volume.keeps_refl v
    | some secret => exact (extends_add _ v (.ofSecret secret) writing).keeps

/-- Calls change nothing on the volume but modes, which then allow all to the user, and make
more. -/
theorem keeps_calls : ∀ (cs : List Call) (s : KeyStore) (v : Volume), v.Keeps (s.calls v cs).2
  | [], _, v => Volume.keeps_refl v
  | c :: cs, s, v => (keeps_call s v c).trans (keeps_calls cs _ _)

variable {t : KeyStore} {u : Volume} {file content : Bytes}

/-- A store that loads the directory has read all key files there. -/
theorem readPair?_of_load {name : Bytes} (ht : t.Indexed)
    (hdirectory : t.directory = directory ∨ t.directory = withSlash directory)
    (hopen : v.locate (withSlash directory) = .ok place) (hname : name ∈ keyFiles v place)
    (hload : (t.load v).answer = .ok ()) : ∃ k, readPair? v (withSlash directory ++ name) = some k ∧
      ((t.load v).after.find? k.address).isSome = true := by
  have hslash : withSlash t.directory = withSlash directory := withSlash_eq hdirectory
  obtain ⟨p, hmirrors⟩ := load_mirrors ht hload
  have hlisted := hmirrors.listed
  rw [hslash, hopen] at hlisted
  cases hlisted
  obtain ⟨k, hread⟩ := Option.isSome_iff_exists.1 (hmirrors.readable name hname)
  have hmem : k ∈ directoryPairs v t.directory place := List.mem_filterMap.2 ⟨name, hname, hread⟩
  rw [hslash] at hread
  refine ⟨k, hread, ?_⟩
  rw [hmirrors.find?_eq, isSome_find?_address_iff]
  exact List.mem_map_of_mem hmem

/-- A file that held no pair when it was made holds none later. -/
theorem readPair?_eq_none_of_makeFile {mode : Nat} (hparse : KeyFile.parse? content = none)
    (hmade : v.makeFile file mode content = .ok w) (hkeeps : w.Keeps u) :
    readPair? u file = none := by
  obtain ⟨mode', hfind, -⟩ := hkeeps.find (Volume.find_makeFile hmade)
  rw [readPair?, Volume.content?, hfind]
  dsimp only [Entry.withMode]
  split
  · exact hparse
  · rfl

/-- A file that is made behind a slash is a new entry of the directory. -/
theorem exists_place_of_makeFile {mode : Nat} {content : Bytes} (h0 : 0 ∉ directory)
    (hmade : v.makeFile (withSlash directory ++ fileName k.address) mode content = .ok w) :
    ∃ place, v.locate (withSlash directory) = .ok place ∧
      w = v.put (place ++ [fileName k.address]) (.file mode content) := by
  have hproper := properName_fileName k.address
  have h0' : 0 ∉ withSlash directory := mt zero_mem_withSlash.1 h0
  have hzero : 0 ∉ withSlash directory ++ fileName k.address := by
    rw [List.mem_append]
    exact not_or.2 ⟨h0', hproper.zero_not_mem⟩
  obtain ⟨hlen, place, hwalk, henter, -, -, -, hw⟩ :=
    (Volume.makeFile_append_eq_ok_iff (.inr (getLast?_withSlash directory)) hzero hproper.ne_nil
      hproper.slash_not_mem).1 hmade
  exact ⟨place, (Volume.locate_base_eq_ok_iff h0' (getLast?_withSlash directory)).2
    ⟨by omega, hwalk, henter.isDirectory⟩, hw⟩

/-- A pair whose file was made in the directory is found by every store that loads it later. None
does if the file was only begun. -/
theorem isSome_find?_load_of_makeFile {writing : Writing}
    (hopen : v.locate (withSlash directory) = .ok place)
    (hmade : v.makeFile (withSlash directory ++ fileName k.address)
      (writing.left (KeyFile.render k)).mode (writing.left (KeyFile.render k)).content = .ok w)
    (hkeeps : w.Keeps u) (ht : t.Indexed)
    (hdirectory : t.directory = directory ∨ t.directory = withSlash directory)
    (hload : (t.load u).answer = .ok ()) : ((t.load u).after.find? k.address).isSome = true := by
  obtain ⟨hroom, hw⟩ := (makeFile_fileName_eq_ok_iff hopen).1 hmade
  obtain ⟨mode, hentry, -⟩ := hkeeps (place ++ [fileName k.address]) _
    (by rw [hw, Volume.entry?_put (by simp) hroom.entry?_eq, if_pos rfl])
  have hname : fileName k.address ∈ keyFiles u place :=
    mem_keyFiles.2 ⟨by rw [hentry]; rfl, isKeyFile_iff.1 (isKeyFile_fileName k.address)⟩
  obtain ⟨k', hk', hfound⟩ := readPair?_of_load ht hdirectory
    (hkeeps.locate ((Volume.extends_makeFile hmade).keeps.locate hopen)) hname hload
  obtain hparse | hparse := Writing.parse?_left writing k
  · have hread := (readPair?_of_makeFile (writing.left_mode k) hmade).trans hparse
    cases hk'.symm.trans (readPair?_of_keeps hkeeps hread)
    exact hfound
  · cases hk'.symm.trans (readPair?_eq_none_of_makeFile hparse hmade hkeeps)

end Keeping

/-- Where the file of a pair is made by a store that has been given a directory, and with what it is
left there. -/
structure Placed (v : Volume) (directory : Bytes) (opened : Bool) (k : KeyPair)
    (left : Writing.Left) (w : Volume) : Prop where
  made : v.makeFile ((if opened then withSlash directory else directory) ++ fileName k.address)
    left.mode left.content = .ok w
  inside : 0 ∉ directory → opened = true ∨ directory.getLast? = some Volume.slash →
    (∃ place, v.locate (withSlash directory) = .ok place ∧
      w = v.put (place ++ [fileName k.address]) (.file left.mode left.content)) ∧
    ∀ (t : KeyStore) (more : List Call) (later : KeyStore), later.Reached →
      later.directory = directory ∨ later.directory = withSlash directory →
        (later.load (t.calls w more).2).answer = .ok () →
          ((later.load (t.calls w more).2).after.find? k.address).isSome = true
  beside : 0 ∉ directory → opened = false → ∀ base last, directory = base ++ last →
    Volume.EndsOpen base → Volume.slash ∉ last →
      ∃ place, v.walk [] (Volume.splitNames base) = .ok place ∧ v.isDirectory place = true ∧
        w = v.put (place ++ [last ++ fileName k.address]) (.file left.mode left.content)

theorem placed_of_makeFile {opened : Bool} {writing : Writing}
    (hmade : v.makeFile ((if opened then withSlash directory else directory) ++ fileName k.address)
      (writing.left (KeyFile.render k)).mode (writing.left (KeyFile.render k)).content = .ok w) :
    Placed v directory opened k (writing.left (KeyFile.render k)) w where
  made := hmade
  inside h0 hslash := by
    have hpath : (if opened then withSlash directory else directory) = withSlash directory := by
      split
      · rfl
      · rename_i hopened
        rw [withSlash, if_pos (beq_iff_eq.2 (hslash.resolve_left hopened))]
    rw [hpath] at hmade
    obtain ⟨place, hopen, hw⟩ := exists_place_of_makeFile h0 hmade
    exact ⟨⟨place, hopen, hw⟩, fun t more later hlater hdirectory hload =>
      isSome_find?_load_of_makeFile hopen hmade (keeps_calls more t w) hlater.indexed hdirectory
        hload⟩
  beside h0 hopened base last hdirectory hbase hlast := by
    subst hopened hdirectory
    have hproper := properName_fileName k.address
    have hzero : 0 ∉ base ++ (last ++ fileName k.address) := by
      rw [← List.append_assoc, List.mem_append]
      exact not_or.2 ⟨h0, hproper.zero_not_mem⟩
    have hslash : Volume.slash ∉ last ++ fileName k.address := by
      rw [List.mem_append]
      exact not_or.2 ⟨hlast, hproper.slash_not_mem⟩
    rw [if_neg Bool.false_ne_true, List.append_assoc] at hmade
    obtain ⟨-, place, hwalk, henter, -, -, -, hw⟩ :=
      (Volume.makeFile_append_eq_ok_iff hbase hzero (by simp [hproper.ne_nil]) hslash).1 hmade
    exact ⟨place, hwalk, henter.isDirectory, hw⟩

/-- Whatever calls were made since a directory was given, a call that writes to the volume makes the
file of its pair, at the name of the directory as it was given or as it was loaded. -/
theorem call_placed (hsince : ∀ d, .setDirectory d ∉ cs) (hk : c.pair? = some k) :
    let now := (s.setDirectory directory).calls v cs
    (now.1.call now.2 c).after.2 ≠ now.2 →
      Placed now.2 directory ((s.setDirectory directory).opens v cs) k
        (c.writing.left (KeyFile.render k)) (now.1.call now.2 c).after.2 := by
  intro now hwrote
  have hdirectory : now.1.directory =
      if (s.setDirectory directory).opens v cs then withSlash directory else directory :=
    directory_calls hsince (show _ = if false then withSlash directory else directory from rfl)
  rw [(call_of_pair? hk).2, volume_add] at hwrote ⊢
  split at hwrote
  · exact absurd rfl hwrote
  · rename_i hnew
    rw [if_neg hnew]
    obtain ⟨_, -, hwrite⟩ | ⟨w, hmake, -⟩ :=
      writeKeyFile_cases now.2 (now.1.keyFile k.address) k c.writing
    · exact absurd (by rw [hwrite]) hwrote
    · rw [volume_writeKeyFile hmake]
      rw [keyFile_eq, hdirectory] at hmake
      exact placed_of_makeFile hmake

/-- A directory without files. -/
def emptyDirectory : Volume where
  entries := [([ascii "ks"], .directory 0o700)]

theorem call_placed_emptyDirectory :
    let now := (KeyStore.empty.setDirectory (ascii "ks")).calls emptyDirectory [.create]
    Placed now.2 (ascii "ks") false (samplePair 1 5)
      (Writing.complete.left (KeyFile.render (samplePair 1 5)))
      (now.1.call now.2 (.add (samplePair 1 5))).after.2 := by
  have hsince : ∀ d, Call.setDirectory d ∉ [Call.create] := by simp
  have hk : (Call.add (samplePair 1 5)).pair? = some (samplePair 1 5) := rfl
  refine call_placed hsince hk fun hsame => ?_
  have hentry := congrArg
    (fun v : Volume => v.entry? [ascii "ks" ++ fileName (samplePair 1 5).address]) hsame
  revert hentry
  decide +kernel

/-- Without loading, the file of a pair is made beside the directory, and loading does not find
it. -/
theorem add_beside_directory :
    let now := (KeyStore.empty.setDirectory (ascii "ks")).calls emptyDirectory
      [.create, .add (samplePair 1 5)]
    now.1.find? (samplePair 1 5).address = some (samplePair 1 5) ∧
      Volume.entry? now.2 [ascii "ks" ++ fileName (samplePair 1 5).address] =
        some (.file 0o400 (KeyFile.render (samplePair 1 5))) ∧
      Volume.entry? now.2 [ascii "ks", fileName (samplePair 1 5).address] = none ∧
      (now.1.load now.2).answer = .ok () ∧
      (now.1.load now.2).after.find? (samplePair 1 5).address = none := by
  intro now
  obtain ⟨hcheck, hopen, hheld, hbeside, hnone⟩ :
      checkDirectory now.2 now.1.directory = .ok [ascii "ks"] ∧
        now.2.locate (withSlash now.1.directory) = .ok [ascii "ks"] ∧
        now.1.find? (samplePair 1 5).address = some (samplePair 1 5) ∧
        Volume.entry? now.2 [ascii "ks" ++ fileName (samplePair 1 5).address] =
          some (.file 0o400 (KeyFile.render (samplePair 1 5))) ∧
        Volume.entry? now.2 [ascii "ks", fileName (samplePair 1 5).address] = none := by
    decide +kernel
  have hnames : now.2.names [ascii "ks"] = [] := by decide +kernel
  have hfiles : keyFiles now.2 [ascii "ks"] = [] :=
    keyFiles_eq .nil (by rw [hnames, List.filter_nil])
  have hindexed : now.1.Indexed := (indexed_empty.setDirectory (ascii "ks")).calls
  have hanswer := answer_load hcheck hopen
  have hholds := load_holds hcheck hopen hindexed
  rw [hfiles] at hanswer hholds
  exact ⟨hheld, hbeside, hnone, hanswer, hholds.find?_eq (samplePair 1 5).address⟩

end OfflineTx.KeyStore
