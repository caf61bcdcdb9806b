import Mathlib.Data.List.Basic
import Mathlib.Data.List.TakeWhile
import OfflineTx.KeyStore.Volume
import OfflineTx.Proofs.Reading

/-!
# Paths

A name behind the path of a directory, when this ends in a slash, leads to the entry of that name
there if the directory may be searched (`find_name_eq_ok_iff`), and makes a file there if the
directory may be written as well and has no such entry (`makeFile_name_eq_ok_iff`). Nothing is read
behind a zero byte, so a name there makes nothing. Without the slash the name is one with the end of
the path (`makeFile_append_eq_ok_iff`).
-/

namespace OfflineTx.Volume

variable {v w : Volume} {place : Place} {path base name content : Bytes} {names : List Bytes}
  {e : Entry}

section Names

theorem pieces_ne_nil (path : Bytes) : pieces path ≠ [] := by
  cases path with
  | nil => nofun
  | cons b path =>
    unfold pieces
    split
    · nofun
    · split
      · nofun
      · nofun

theorem pieces_append_slash : ∀ path rest : Bytes,
    pieces (path ++ slash :: rest) = pieces path ++ pieces rest
  | [], rest => by simp [pieces]
  | b :: path, rest => by
    rw [List.cons_append, pieces, pieces, pieces_append_slash path rest]
    split
    · rfl
    · cases h : pieces path with
      | nil => exact absurd h (pieces_ne_nil path)
      | cons name names => rfl

theorem pieces_of_not_mem : ∀ {name : Bytes}, slash ∉ name → pieces name = [name]
  | [], _ => rfl
  | b :: name, h => by
    obtain ⟨hb, hname⟩ := not_or.1 fun h' => h (List.mem_cons.2 h')
    have hb' : ¬(b == slash) = true := fun hb' => hb (eq_of_beq hb').symm
    rw [pieces, if_neg hb', pieces_of_not_mem hname]

theorem splitNames_append_slash (path rest : Bytes) :
    splitNames (path ++ slash :: rest) = splitNames path ++ splitNames rest := by
  rw [splitNames, pieces_append_slash, List.filter_append, splitNames, splitNames]

/-- Whether a name behind the path is a name of its own. -/
def EndsOpen (base : Bytes) : Prop :=
  base = [] ∨ base.getLast? = some slash

theorem splitNames_append (hbase : EndsOpen base) (rest : Bytes) :
    splitNames (base ++ rest) = splitNames base ++ splitNames rest := by
  rcases hbase with rfl | hlast
  · rfl
  · rw [← List.dropLast_append_getLast? _ hlast, List.append_assoc, List.singleton_append,
      splitNames_append_slash, splitNames_append_slash]
    exact congrArg (· ++ _) (List.append_nil _).symm

theorem splitNames_name (hne : name ≠ []) (hslash : slash ∉ name) : splitNames name = [name] := by
  have hempty : name.isEmpty = false := by simpa using hne
  rw [splitNames, pieces_of_not_mem hslash]
  simp [hempty]

/-- A text that names an entry of a directory. -/
structure ProperName (name : Bytes) : Prop where
  ne_nil : name ≠ []
  slash_not_mem : slash ∉ name
  zero_not_mem : 0 ∉ name
  ne_point : name ≠ ascii "."
  ne_points : name ≠ ascii ".."
  length_le : name.length ≤ maxName

theorem upToZero_of_not_mem (h : 0 ∉ path) : Bytes.upToZero path = path := by
  rw [Bytes.upToZero, List.takeWhile_eq_self_iff]
  intro b hb
  exact bne_iff_ne.2 fun hzero => h (hzero ▸ hb)

/-- Nothing behind a zero byte is read. -/
theorem upToZero_append_of_mem (h : 0 ∈ path) (rest : Bytes) :
    Bytes.upToZero (path ++ rest) = Bytes.upToZero path := by
  have hshort : ¬(path.takeWhile (· != 0)).length = path.length := by
    intro hlen
    have hall := List.takeWhile_eq_self_iff.1 ((List.takeWhile_prefix _).eq_of_length hlen)
    exact bne_iff_ne.1 (hall 0 h) rfl
  rw [Bytes.upToZero, List.takeWhile_append, if_neg hshort, Bytes.upToZero]

theorem parse_append_of_mem (h : 0 ∈ path) (rest : Bytes) : parse (path ++ rest) = parse path := by
  rw [parse, parse, upToZero_append_of_mem h]

theorem parse_eq_ok_iff {slashed : Bool} (h : 0 ∉ path) : parse path = .ok (names, slashed) ↔
    path ≠ [] ∧ path.length < maxPath ∧ splitNames path = names ∧
      (path.getLast? == some slash) = slashed := by
  simp only [parse, upToZero_of_not_mem h]
  split
  · rename_i hempty
    simp [List.isEmpty_iff.1 hempty]
  · rename_i hne
    split
    · rename_i hlen
      simp [Nat.not_lt.2 hlen]
    · rename_i hlen
      simp [Nat.not_le.1 hlen, List.isEmpty_iff.not.1 hne]

theorem parse_append_eq_ok_iff {slashed : Bool} (hbase : EndsOpen base) (h : 0 ∉ base ++ name)
    (hne : name ≠ []) (hslash : slash ∉ name) : parse (base ++ name) = .ok (names, slashed) ↔
      base.length + name.length < maxPath ∧ names = splitNames base ++ [name] ∧
        slashed = false := by
  have hlast : ((base ++ name).getLast? == some slash) = false := by
    rw [beq_eq_false_iff_ne, List.getLast?_append, List.getLast?_eq_some_getLast hne,
      Option.some_or]
    exact fun h => hslash (Option.some.inj h ▸ List.getLast_mem hne)
  have hne' : base ++ name ≠ [] := by simp [hne]
  rw [parse_eq_ok_iff h, hlast, splitNames_append hbase, splitNames_name hne hslash,
    List.length_append]
  exact ⟨fun ⟨_, hlen, hnames, hslashed⟩ => ⟨hlen, hnames.symm, hslashed.symm⟩,
    fun ⟨hlen, hnames, hslashed⟩ => ⟨hne', hlen, hnames.symm, hslashed.symm⟩⟩

end Names

section Places

/-- Names are looked for in a directory that may be searched. -/
structure Enterable (v : Volume) (place : Place) : Prop where
  isDirectory : v.isDirectory place = true
  search : v.allowsAt .search place = true

theorem walk_append : ∀ (names rest : List Bytes) (place : Place),
    v.walk place (names ++ rest) = do v.walk (← v.walk place names) rest
  | [], _, _ => rfl
  | name :: names, rest, place => by
    rw [List.cons_append, walk, walk]
    split
    · rfl
    · split
      · rfl
      · split
        · exact walk_append names rest _
        · split
          · exact walk_append names rest _
          · split
            · rfl
            · split
              · rfl
              · exact walk_append names rest _

theorem walk_name (hname : name ≠ ascii ".") (hname' : name ≠ ascii "..")
    (hlen : name.length ≤ maxName) (hplace : v.Enterable place) :
    v.walk place [name] = if (v.entry? (place ++ [name])).isNone then .error SystemError.noEntry
      else .ok (place ++ [name]) := by
  have hpoint : ¬(name == ascii ".") = true := fun h => hname (eq_of_beq h)
  have hpoints : ¬(name == ascii "..") = true := fun h => hname' (eq_of_beq h)
  rw [walk, hplace.isDirectory, hplace.search, if_neg (by simp), if_neg (by simp), if_neg hpoint,
    if_neg hpoints, if_neg (Nat.not_lt.2 hlen), walk]

/-- Nothing is found in a directory that may not be searched. -/
theorem enterable_of_walk_cons {p : Place} (h : v.walk place (name :: names) = .ok p) :
    v.Enterable place := by
  rw [walk] at h
  split at h
  · cases h
  · rename_i hdir
    split at h
    · cases h
    · rename_i hsearch
      exact ⟨by simpa using hdir, by simpa using hsearch⟩

/-- What follows a check is reached if the check does not refuse. -/
theorem throwIf_eq_ok_iff {α : Type} {c : Prop} [Decidable c] {number : Int}
    {f : PUnit → Except Int α} {x : Except Int α} {a : α} :
    (if c then (throw number : Except Int PUnit) >>= f else x) = .ok a ↔ ¬c ∧ x = .ok a := by
  by_cases h : c
  · rw [if_pos h]
    exact ⟨nofun, fun h' => absurd h h'.1⟩
  · rw [if_neg h]
    exact (and_iff_right h).symm

theorem locate_eq_ok_iff : v.locate path = .ok place ↔ ∃ names slashed,
    parse path = .ok (names, slashed) ∧ v.walk [] names = .ok place ∧
      (slashed = true → v.isDirectory place = true) := by
  simp only [locate, bind_eq_ok_iff, throwIf_eq_ok_iff, Prod.exists]
  refine exists_congr fun names => exists_congr fun slashed => and_congr_right fun _ => ?_
  constructor
  · rintro ⟨p, hp, hdir, h⟩
    cases h
    exact ⟨hp, by simpa using hdir⟩
  · rintro ⟨hp, hdir⟩
    exact ⟨place, hp, by simpa using hdir, rfl⟩

/-- The directory that a path with a slash at its end leads to. -/
theorem locate_base_eq_ok_iff (h : 0 ∉ base) (hbase : base.getLast? = some slash) :
    v.locate base = .ok place ↔ base.length < maxPath ∧ v.walk [] (splitNames base) = .ok place ∧
      v.isDirectory place = true := by
  have hne : base ≠ [] := by
    rintro rfl
    cases hbase
  simp [locate_eq_ok_iff, parse_eq_ok_iff h, hbase, hne, and_assoc]

theorem target_eq_ok_iff {slashed : Bool} : v.target path = .ok (place, name, slashed) ↔ ∃ names,
    parse path = .ok (names ++ [name], slashed) ∧ v.walk [] names = .ok place ∧
      v.Enterable place ∧ name ≠ ascii "." ∧ name ≠ ascii ".." := by
  simp only [target, bind_eq_ok_iff, throwIf_eq_ok_iff, Prod.exists]
  constructor
  · rintro ⟨names, slashed', hparse, directory, hwalk, hdir, hsearch, h⟩
    cases hlast : names.getLast? with
    | none => simp [hlast, throw, throwThe, MonadExceptOf.throw] at h
    | some last =>
      simp only [hlast, throwIf_eq_ok_iff] at h
      obtain ⟨hpoint, h⟩ := h
      cases h
      refine ⟨names.dropLast, ?_, hwalk, ⟨by simpa using hdir, by simpa using hsearch⟩,
        by simpa using hpoint⟩
      rw [List.dropLast_append_getLast? _ hlast]
      exact hparse
  · rintro ⟨names, hparse, hwalk, hdir, hpoint, hpoints⟩
    refine ⟨_, slashed, hparse, place, by simpa using hwalk, by simp [hdir.isDirectory],
      by simp [hdir.search], ?_⟩
    simp only [List.getLast?_concat, throwIf_eq_ok_iff]
    exact ⟨by simp [hpoint, hpoints], rfl⟩

/-- Whether a new entry may have the name in the directory at a place. -/
structure Vacant (v : Volume) (place : Place) (name : Bytes) : Prop where
  length_le : name.length ≤ maxName
  entry?_eq : v.entry? (place ++ [name]) = none
  write : v.allowsAt .write place = true

theorem vacancy_eq_ok_iff {p : Place} : v.vacancy place name = .ok p ↔
    v.Vacant place name ∧ p = place ++ [name] := by
  unfold vacancy
  split
  · rename_i hlen
    exact ⟨nofun, fun h => absurd hlen (Nat.not_lt.2 h.1.length_le)⟩
  · rename_i hlen
    split
    · rename_i hsome
      exact ⟨nofun, fun h => by rw [h.1.entry?_eq] at hsome; cases hsome⟩
    · rename_i hnone
      split
      · rename_i hwrite
        exact ⟨nofun, fun h => by rw [h.1.write] at hwrite; cases hwrite⟩
      · rename_i hwrite
        have hvacant : v.Vacant place name := ⟨Nat.not_lt.1 hlen,
          Option.not_isSome_iff_eq_none.1 hnone, by simpa using hwrite⟩
        exact ⟨fun h => by cases h; exact ⟨hvacant, rfl⟩, fun h => congrArg _ h.2.symm⟩

theorem makeDirectory_eq_ok_iff {mode : Nat} : v.makeDirectory path mode = .ok w ↔
    ∃ directory name slashed, v.target path = .ok (directory, name, slashed) ∧
      v.Vacant directory name ∧ w = v.put (directory ++ [name]) (.directory mode) := by
  simp only [makeDirectory, bind_eq_ok_iff, vacancy_eq_ok_iff, Prod.exists]
  constructor
  · rintro ⟨directory, name, slashed, htarget, p, ⟨hvacant, rfl⟩, h⟩
    cases h
    exact ⟨directory, name, slashed, htarget, hvacant, rfl⟩
  · rintro ⟨directory, name, slashed, htarget, hvacant, rfl⟩
    exact ⟨directory, name, slashed, htarget, _, ⟨hvacant, rfl⟩, rfl⟩

theorem makeFile_eq_ok_iff {mode : Nat} : v.makeFile path mode content = .ok w ↔
    ∃ directory name, v.target path = .ok (directory, name, false) ∧
      v.Vacant directory name ∧ w = v.put (directory ++ [name]) (.file mode content) := by
  simp only [makeFile, bind_eq_ok_iff, throwIf_eq_ok_iff, vacancy_eq_ok_iff, Prod.exists]
  constructor
  · rintro ⟨directory, name, slashed, htarget, hslashed, p, ⟨hvacant, rfl⟩, h⟩
    cases h
    rw [Bool.not_eq_true] at hslashed
    exact ⟨directory, name, hslashed ▸ htarget, hvacant, rfl⟩
  · rintro ⟨directory, name, htarget, hvacant, rfl⟩
    exact ⟨directory, name, false, htarget, Bool.false_ne_true, _, ⟨hvacant, rfl⟩, rfl⟩

theorem find_eq_ok_iff : v.find path = .ok e ↔
    ∃ place, v.locate path = .ok place ∧ v.entry? place = some e := by
  simp only [find, bind_eq_ok_iff]
  refine exists_congr fun p => and_congr_right fun _ => ?_
  cases v.entry? p with
  | none => exact ⟨nofun, nofun⟩
  | some e' => exact ⟨fun h => by cases h; rfl, fun h => by cases h; rfl⟩

/-- The content of an entry that is a file and may be read. -/
def readable? (v : Volume) : Entry → Option Bytes
  | .file mode content standing =>
    if v.allows .read (.file mode content standing) then some content else none
  | .directory .. => none

theorem readable?_eq_some_iff : v.readable? e = some content ↔ ∃ mode standing,
    e = .file mode content standing ∧ v.allows .read e = true := by
  unfold readable?
  split
  · rename_i mode c standing
    simp only [Option.ite_none_right_eq_some, Option.some.injEq, Entry.file.injEq]
    constructor
    · rintro ⟨hallows, rfl⟩
      exact ⟨mode, standing, ⟨rfl, rfl, rfl⟩, hallows⟩
    · rintro ⟨mode', standing', ⟨rfl, rfl, rfl⟩, hallows⟩
      exact ⟨hallows, rfl⟩
  · exact ⟨nofun, nofun⟩

theorem content?_eq_some_iff : v.content? path = some content ↔
    content ≠ [] ∧ ∃ e, v.find path = .ok e ∧ v.readable? e = some content := by
  unfold content?
  split
  · rename_i mode c standing hfind
    simp only [hfind, Except.ok.injEq, exists_eq_left', readable?, Option.ite_none_right_eq_some,
      Option.some.injEq, Bool.and_eq_true, Bool.not_eq_true', List.isEmpty_eq_false_iff]
    constructor
    · rintro ⟨⟨hallows, hne⟩, rfl⟩
      exact ⟨hne, hallows, rfl⟩
    · rintro ⟨hne, hallows, rfl⟩
      exact ⟨⟨hallows, hne⟩, rfl⟩
  · rename_i hfind
    refine ⟨nofun, fun ⟨_, e, he, hread⟩ => ?_⟩
    cases e with
    | file mode c standing => exact absurd he (hfind mode c standing)
    | directory mode standing => cases hread

/-- A path that leads somewhere makes no file. -/
theorem not_makeFile_of_locate {mode : Nat} (hplace : v.locate path = .ok place) :
    v.makeFile path mode content ≠ .ok w := by
  intro hmake
  obtain ⟨directory, name, htarget, hvacant, -⟩ := makeFile_eq_ok_iff.1 hmake
  obtain ⟨names, hparse, hwalk, hdir, hpoint, hpoints⟩ := target_eq_ok_iff.1 htarget
  obtain ⟨names', slashed, hparse', hwalk', -⟩ := locate_eq_ok_iff.1 hplace
  obtain ⟨rfl, -⟩ : names ++ [name] = names' ∧ false = slashed := by
    simpa using hparse.symm.trans hparse'
  obtain ⟨p, hp, hname⟩ := bind_eq_ok_iff.1 ((walk_append _ _ _).symm.trans hwalk')
  cases hwalk.symm.trans hp
  rw [walk_name hpoint hpoints hvacant.length_le hdir, hvacant.entry?_eq] at hname
  cases hname

end Places

section Naming

/-- What a name behind the path of a directory leads to. -/
theorem locate_name_eq_ok_iff {p : Place} (h : 0 ∉ base) (hbase : base.getLast? = some slash)
    (hname : ProperName name) (hlen : base.length + name.length < maxPath)
    (hplace : v.locate base = .ok place) :
    v.locate (base ++ name) = .ok p ↔
      v.allowsAt .search place = true ∧ v.entry? (place ++ [name]) ≠ none ∧
        p = place ++ [name] := by
  obtain ⟨-, hwalk, hdir⟩ := (locate_base_eq_ok_iff h hbase).1 hplace
  have hwalk' : v.walk [] (splitNames base ++ [name]) = v.walk place [name] := by
    rw [walk_append, hwalk]
    rfl
  have hstep : v.Enterable place → v.walk place [name] =
      if (v.entry? (place ++ [name])).isNone then .error SystemError.noEntry
      else .ok (place ++ [name]) :=
    walk_name hname.ne_point hname.ne_points hname.length_le
  have hzero : 0 ∉ base ++ name := by simp [h, hname.zero_not_mem]
  simp only [locate_eq_ok_iff, parse_append_eq_ok_iff (.inr hbase) hzero hname.ne_nil
    hname.slash_not_mem]
  constructor
  · rintro ⟨_, _, ⟨-, rfl, rfl⟩, hp, -⟩
    rw [hwalk'] at hp
    have henter : v.Enterable place := enterable_of_walk_cons hp
    rw [hstep henter] at hp
    split at hp
    · cases hp
    · rename_i hnone
      cases hp
      exact ⟨henter.search, by simpa using hnone, rfl⟩
  · rintro ⟨hsearch, hne, rfl⟩
    refine ⟨_, _, ⟨hlen, rfl, rfl⟩, ?_, nofun⟩
    rw [hwalk', hstep ⟨hdir, hsearch⟩, if_neg (by simpa using hne)]

theorem find_name_eq_ok_iff (h : 0 ∉ base) (hbase : base.getLast? = some slash)
    (hname : ProperName name) (hlen : base.length + name.length < maxPath)
    (hplace : v.locate base = .ok place) :
    v.find (base ++ name) = .ok e ↔
      v.allowsAt .search place = true ∧ v.entry? (place ++ [name]) = some e := by
  simp only [find_eq_ok_iff, locate_name_eq_ok_iff h hbase hname hlen hplace]
  constructor
  · rintro ⟨_, ⟨hsearch, -, rfl⟩, he⟩
    exact ⟨hsearch, he⟩
  · rintro ⟨hsearch, he⟩
    exact ⟨_, ⟨hsearch, by rw [he]; nofun, rfl⟩, he⟩

/-- Where a file is made whose name is what follows a path. -/
theorem makeFile_append_eq_ok_iff {mode : Nat} (hbase : EndsOpen base) (h : 0 ∉ base ++ name)
    (hne : name ≠ []) (hslash : slash ∉ name) :
    v.makeFile (base ++ name) mode content = .ok w ↔
      base.length + name.length < maxPath ∧ ∃ place, v.walk [] (splitNames base) = .ok place ∧
        v.Enterable place ∧ name ≠ ascii "." ∧ name ≠ ascii ".." ∧ v.Vacant place name ∧
          w = v.put (place ++ [name]) (.file mode content) := by
  simp only [makeFile_eq_ok_iff, target_eq_ok_iff, parse_append_eq_ok_iff hbase h hne hslash]
  constructor
  · rintro ⟨place, last, ⟨names, ⟨hlen, hnames, -⟩, hwalk, hdir, hpoint, hpoints⟩, hvacant, rfl⟩
    obtain ⟨rfl, hlast⟩ := List.append_inj' hnames rfl
    cases hlast
    exact ⟨hlen, place, hwalk, hdir, hpoint, hpoints, hvacant, rfl⟩
  · rintro ⟨hlen, place, hwalk, hdir, hpoint, hpoints, hvacant, rfl⟩
    exact ⟨place, name, ⟨_, ⟨hlen, rfl, trivial⟩, hwalk, hdir, hpoint, hpoints⟩, hvacant, rfl⟩

/-- A file is made at a name in a directory if nothing is there and the directory may be searched
and written. -/
theorem makeFile_name_eq_ok_iff {mode : Nat} (hbase : base.getLast? = some slash)
    (hname : ProperName name) (hplace : v.locate base = .ok place) :
    v.makeFile (base ++ name) mode content = .ok w ↔
      0 ∉ base ∧ base.length + name.length < maxPath ∧ v.allowsAt .search place = true ∧
        v.allowsAt .write place = true ∧ v.entry? (place ++ [name]) = none ∧
          w = v.put (place ++ [name]) (.file mode content) := by
  by_cases h : 0 ∈ base
  · -- The name is behind a zero byte, and the path leads to the directory itself.
    have hsame : v.locate (base ++ name) = v.locate base := by
      rw [locate, locate, parse_append_of_mem h]
    exact iff_of_false (not_makeFile_of_locate (hsame.trans hplace)) fun h' => h'.1 h
  · obtain ⟨-, hwalk, hdir⟩ := (locate_base_eq_ok_iff h hbase).1 hplace
    have hzero : 0 ∉ base ++ name := by simp [h, hname.zero_not_mem]
    rw [makeFile_append_eq_ok_iff (.inr hbase) hzero hname.ne_nil hname.slash_not_mem]
    constructor
    · rintro ⟨hlen, p, hp, henter, -, -, hvacant, rfl⟩
      cases hwalk.symm.trans hp
      exact ⟨h, hlen, henter.search, hvacant.write, hvacant.entry?_eq, rfl⟩
    · rintro ⟨-, hlen, hsearch, hwrite, hnone, rfl⟩
      exact ⟨hlen, place, hwalk, ⟨hdir, hsearch⟩, hname.ne_point, hname.ne_points,
        ⟨hname.length_le, hnone, hwrite⟩, rfl⟩

end Naming

end OfflineTx.Volume
