import Mathlib.Data.List.Nodup
import OfflineTx.Proofs.Paths

/-!
# What a volume holds

A volume in which more is made still holds what it held (`Extends`), and if modes change too, all of
it but for its modes, which allow what they allowed (`Keeps`). Paths then lead where they led. No
reading of a volume but the listing of a directory depends on the order of its entries
(`entry?_perm`, `names_perm`).
-/

namespace OfflineTx

/-- Where no two elements have one key, an element is found by its key. -/
theorem find?_key_eq_some_iff {α κ : Type} [BEq κ] [LawfulBEq κ] {l : List α} {key : α → κ}
    (h : (l.map key).Nodup) {k : κ} {a : α} :
    l.find? (key · == k) = some a ↔ a ∈ l ∧ key a = k := by
  constructor
  · intro hfind
    exact ⟨List.mem_of_find?_eq_some hfind, by simpa using List.find?_some hfind⟩
  · rintro ⟨ha, rfl⟩
    have hsome : (l.find? (key · == key a)).isSome = true :=
      List.find?_isSome.2 ⟨a, ha, beq_self_eq_true (key a)⟩
    obtain ⟨b, hb⟩ := Option.isSome_iff_exists.1 hsome
    have hkey : key b = key a := by simpa using List.find?_some hb
    rw [hb, List.inj_on_of_nodup_map h (List.mem_of_find?_eq_some hb) ha hkey]

theorem Entry.withMode_mode (e : Entry) : e.withMode e.mode = e := by
  cases e <;> rfl

namespace Volume

variable {v w : Volume} {place : Place} {path name content : Bytes} {names : List Bytes} {e : Entry}

section Holding

/-- All that a volume holds is in the other as it is, for the same user. -/
structure Extends (v w : Volume) : Prop where
  privileged_eq : w.privileged = v.privileged
  entry?_eq : ∀ place e, v.entry? place = some e → w.entry? place = some e

/-- All that a volume holds is in the other, perhaps with other modes. What was allowed is. -/
def Keeps (v w : Volume) : Prop :=
  ∀ place e, v.entry? place = some e → ∃ mode, w.entry? place = some (e.withMode mode) ∧
    ∀ access, v.allows access e = true → w.allows access (e.withMode mode) = true

theorem Extends.keeps (h : v.Extends w) : v.Keeps w := by
  refine fun place e he => ⟨e.mode, ?_, fun access hallows => ?_⟩
  · rw [Entry.withMode_mode, h.entry?_eq place e he]
  · rw [Entry.withMode_mode, allows, h.privileged_eq]
    exact hallows

theorem extends_refl (v : Volume) : v.Extends v :=
  ⟨rfl, fun _ _ h => h⟩

theorem keeps_refl (v : Volume) : v.Keeps v :=
  (extends_refl v).keeps

theorem Keeps.trans {x : Volume} (h : v.Keeps w) (h' : w.Keeps x) : v.Keeps x := by
  intro place e he
  obtain ⟨mode, he', hallows⟩ := h place e he
  obtain ⟨mode', he'', hallows'⟩ := h' place _ he'
  have hmode : (e.withMode mode).withMode mode' = e.withMode mode' := by cases e <;> rfl
  exact ⟨mode', hmode ▸ he'', fun access ha => hmode ▸ hallows' access (hallows access ha)⟩

theorem isDirectory_eq_true_iff : v.isDirectory place = true ↔
    ∃ mode standing, v.entry? place = some (.directory mode standing) := by
  unfold isDirectory
  cases v.entry? place with
  | none => exact ⟨nofun, nofun⟩
  | some e => cases e <;> simp [Entry.isDirectory]

theorem allowsAt_eq_true_iff {access : Access} : v.allowsAt access place = true ↔
    ∃ e, v.entry? place = some e ∧ v.allows access e = true := by
  unfold allowsAt
  cases v.entry? place with
  | none => exact ⟨nofun, nofun⟩
  | some e => simp

theorem Keeps.isDirectory (h : v.Keeps w) (hdir : v.isDirectory place = true) :
    w.isDirectory place = true := by
  obtain ⟨mode, standing, he⟩ := isDirectory_eq_true_iff.1 hdir
  obtain ⟨mode', he', -⟩ := h place _ he
  exact isDirectory_eq_true_iff.2 ⟨mode', standing, he'⟩

theorem Keeps.allowsAt (h : v.Keeps w) {access : Access} (ha : v.allowsAt access place = true) :
    w.allowsAt access place = true := by
  obtain ⟨e, he, hallows⟩ := allowsAt_eq_true_iff.1 ha
  obtain ⟨mode, he', hallows'⟩ := h place e he
  exact allowsAt_eq_true_iff.2 ⟨_, he', hallows' access hallows⟩

theorem Keeps.enterable (h : v.Keeps w) (hplace : v.Enterable place) : w.Enterable place :=
  ⟨h.isDirectory hplace.isDirectory, h.allowsAt hplace.search⟩

theorem Keeps.isNone (h : v.Keeps w) (hnone : (w.entry? place).isNone = true) :
    (v.entry? place).isNone = true := by
  cases he : v.entry? place with
  | none => rfl
  | some e =>
    obtain ⟨mode, he', -⟩ := h place e he
    rw [he'] at hnone
    cases hnone

theorem Keeps.walk (h : v.Keeps w) : ∀ {names : List Bytes} {place p : Place},
    v.walk place names = .ok p → w.walk place names = .ok p
  | [], _, _, hwalk => hwalk
  | name :: names, place, p, hwalk => by
    have henter : w.Enterable place := h.enterable (enterable_of_walk_cons hwalk)
    rw [Volume.walk, if_neg (by simp [henter.isDirectory]), if_neg (by simp [henter.search])]
    rw [Volume.walk] at hwalk
    split at hwalk
    · cases hwalk
    · split at hwalk
      · cases hwalk
      · split at hwalk
        · rename_i hpoint
          rw [if_pos hpoint]
          exact h.walk hwalk
        · rename_i hpoint
          rw [if_neg hpoint]
          split at hwalk
          · rename_i hpoints
            rw [if_pos hpoints]
            exact h.walk hwalk
          · rename_i hpoints
            rw [if_neg hpoints]
            split at hwalk
            · cases hwalk
            · rename_i hlen
              rw [if_neg hlen]
              split at hwalk
              · cases hwalk
              · rename_i hnone
                rw [if_neg fun hnone' => hnone (h.isNone hnone')]
                exact h.walk hwalk

theorem Keeps.locate (h : v.Keeps w) (hplace : v.locate path = .ok place) :
    w.locate path = .ok place := by
  obtain ⟨names, slashed, hparse, hwalk, hdir⟩ := locate_eq_ok_iff.1 hplace
  exact locate_eq_ok_iff.2 ⟨names, slashed, hparse, h.walk hwalk, fun hs => h.isDirectory (hdir hs)⟩

theorem Keeps.find (h : v.Keeps w) (hfind : v.find path = .ok e) :
    ∃ mode, w.find path = .ok (e.withMode mode) ∧
      ∀ access, v.allows access e = true → w.allows access (e.withMode mode) = true := by
  obtain ⟨place, hplace, he⟩ := find_eq_ok_iff.1 hfind
  obtain ⟨mode, he', hallows⟩ := h place e he
  exact ⟨mode, find_eq_ok_iff.2 ⟨place, h.locate hplace, he'⟩, hallows⟩

theorem Keeps.content? (h : v.Keeps w) (hcontent : v.content? path = some content) :
    w.content? path = some content := by
  obtain ⟨hne, e, hfind, hread⟩ := content?_eq_some_iff.1 hcontent
  obtain ⟨mode, hfind', hallows⟩ := h.find hfind
  refine content?_eq_some_iff.2 ⟨hne, _, hfind', ?_⟩
  obtain ⟨mode', standing, rfl, hread'⟩ := readable?_eq_some_iff.1 hread
  exact readable?_eq_some_iff.2 ⟨mode, standing, rfl, hallows .read hread'⟩

end Holding

section Making

theorem entry?_put (hplace : place ≠ []) (hnone : v.entry? place = none) (p : Place) :
    entry? (v.put place e) p = if p = place then some e else v.entry? p := by
  rw [ entry?, if_neg (by simpa using hplace)] at hnone
  by_cases hp : p = place
  · subst hp
    rw [if_pos rfl, entry?, if_neg (by simpa using hplace), put, List.find?_append,
      Option.map_eq_none_iff.1 hnone]
    simp
  · rw [if_neg hp, entry?, entry?, put, List.find?_append]
    simp [Ne.symm hp]

theorem extends_put (hplace : place ≠ []) (hnone : v.entry? place = none) :
    v.Extends (v.put place e) := by
  refine ⟨rfl, fun p e' he' => ?_⟩
  rw [entry?_put hplace hnone, if_neg, he']
  rintro rfl
  rw [hnone] at he'
  cases he'

/-- An entry is changed where its place is, unless that is the top. -/
theorem entry?_update (v : Volume) (place p : Place) (f : Entry → Entry) :
    entry? (v.update place f) p =
      (v.entry? p).map fun e => if p = place ∧ p ≠ [] then f e else e := by
  unfold entry?
  split
  · rename_i hp
    simp [List.isEmpty_iff.1 hp]
  · rename_i hp
    have hcomp : ((fun x : Place × Entry => x.1 == p) ∘ fun x =>
        if x.1 == place then (x.1, f x.2) else x) = fun x => x.1 == p := by
      funext x
      dsimp only [Function.comp_apply]
      split <;> rfl
    simp only [update, List.find?_map, hcomp]
    cases hfind : v.entries.find? (·.1 == p) with
    | none => rfl
    | some found =>
      have hfound : found.1 = p := by simpa using List.find?_some hfind
      have hne : p ≠ [] := by simpa using hp
      by_cases hplace : p = place
      · simp [hfound, hplace, hplace ▸ hne]
      · simp [hfound, hplace]

/-- A mode that takes nothing from the user keeps what the volume holds. -/
theorem keeps_update {mode : Nat} (hmode : ∀ e access, v.entry? place = some e →
      v.allows access (e.withMode mode) = true) : v.Keeps (v.update place (.withMode mode)) := by
  intro p e he
  rw [entry?_update, he, Option.map_some]
  by_cases hp : p = place ∧ p ≠ []
  · rw [if_pos hp]
    exact ⟨mode, rfl, fun access _ => hmode e access (hp.1 ▸ he)⟩
  · rw [if_neg hp]
    exact ⟨e.mode, by rw [Entry.withMode_mode], fun access ha => by rwa [Entry.withMode_mode]⟩

theorem extends_makeFile {mode : Nat} (hmake : v.makeFile path mode content = .ok w) :
    v.Extends w := by
  obtain ⟨directory, name, -, hvacant, rfl⟩ := makeFile_eq_ok_iff.1 hmake
  exact extends_put (by simp) hvacant.entry?_eq

theorem extends_makeDirectory {mode : Nat} (hmake : v.makeDirectory path mode = .ok w) :
    v.Extends w := by
  obtain ⟨directory, name, slashed, -, hvacant, rfl⟩ := makeDirectory_eq_ok_iff.1 hmake
  exact extends_put (by simp) hvacant.entry?_eq

/-- Only who may do all with the new mode changes it, if that is all that an owner may do. -/
theorem keeps_changeMode {mode : Nat} (hmode : ∀ access, mode &&& Access.bit .owner access ≠ 0)
    (hchange : v.changeMode path mode = .ok w) : v.Keeps w := by
  simp only [changeMode, bind_eq_ok_iff, throwIf_eq_ok_iff] at hchange
  obtain ⟨place, -, howned, hw⟩ := hchange
  cases hw
  refine keeps_update fun e access he => ?_
  rw [allows]
  cases hprivileged : v.privileged with
  | true => rfl
  | false =>
    have hstanding : e.standing = .owner := by simpa [hprivileged, he] using howned
    have hsame : (e.withMode mode).standing = e.standing := by cases e <;> rfl
    have hnew : (e.withMode mode).mode = mode := by cases e <;> rfl
    rw [Bool.false_or, Entry.grants, hsame, hstanding, hnew, bne_iff_ne]
    exact hmode access

/-- A file that is made is found. -/
theorem find_makeFile {mode : Nat} (hmake : v.makeFile path mode content = .ok w) :
    w.find path = .ok (.file mode content) := by
  obtain ⟨directory, name, htarget, hvacant, rfl⟩ := makeFile_eq_ok_iff.1 hmake
  obtain ⟨names, hparse, hwalk, hdir, hpoint, hpoints⟩ := target_eq_ok_iff.1 htarget
  have hne : directory ++ [name] ≠ [] := by simp
  have hnone := hvacant.entry?_eq
  have hkeeps : v.Keeps (v.put (directory ++ [name]) (.file mode content)) :=
    (extends_put hne hnone).keeps
  refine find_eq_ok_iff.2 ⟨directory ++ [name], ?_, by rw [entry?_put hne hnone, if_pos rfl]⟩
  refine locate_eq_ok_iff.2 ⟨_, _, hparse, ?_, nofun⟩
  rw [walk_append, hkeeps.walk hwalk]
  exact (walk_name hpoint hpoints hvacant.length_le (hkeeps.enterable hdir)).trans
    (if_neg (by rw [entry?_put hne hnone, if_pos rfl]; nofun))

end Making

section Listing

theorem mem_names : name ∈ v.names place ↔ (v.entry? (place ++ [name])).isSome = true := by
  have hplace : ∀ p : Place, (p ≠ [] ∧ p.dropLast = place) ∧ p.getLast? = some name ↔
      p = place ++ [name] := by
    intro p
    constructor
    · rintro ⟨⟨-, rfl⟩, hlast⟩
      exact (List.dropLast_append_getLast? _ hlast).symm
    · rintro rfl
      simp
  rw [ entry?, if_neg (by simp), Option.isSome_map, List.find?_isSome]
  simp only [names, List.mem_filterMap, List.mem_filter]
  constructor
  · rintro ⟨⟨p, e⟩, ⟨hmem, hinside⟩, hlast⟩
    have hp := (hplace p).1 ⟨by simpa using hinside, hlast⟩
    exact ⟨(p, e), hmem, beq_iff_eq.2 hp⟩
  · rintro ⟨⟨p, e⟩, hmem, hp⟩
    obtain ⟨hinside, hlast⟩ := (hplace p).2 (beq_iff_eq.1 hp)
    exact ⟨(p, e), ⟨hmem, by simpa using hinside⟩, hlast⟩

theorem names_perm (h : v.entries.Perm w.entries) (place : Place) :
    (v.names place).Perm (w.names place) :=
  (h.filter _).filterMap _

theorem not_mem_names (hnone : v.entry? (place ++ [name]) = none) : name ∉ v.names place := by
  rw [mem_names, hnone]
  nofun

/-- A new entry is one name more. -/
theorem names_put (v : Volume) (place : Place) (name : Bytes) (e : Entry) :
    (v.put (place ++ [name]) e).names place = v.names place ++ [name] := by
  simp [names, put]

/-- Where no place has two entries, their order does not count. -/
theorem entry?_perm (h : v.entries.Perm w.entries) (hnodup : (v.entries.map Prod.fst).Nodup) :
    v.entry? = w.entry? := by
  funext place
  have hfind : v.entries.find? (·.1 == place) = w.entries.find? (·.1 == place) := by
    ext x
    rw [find?_key_eq_some_iff hnodup, find?_key_eq_some_iff ((h.map _).nodup_iff.1 hnodup),
      h.mem_iff]
  rw [ entry?, entry?, hfind]

variable (h : v.entry? = w.entry?) (hp : v.privileged = w.privileged)

include h in
theorem isDirectory_congr : v.isDirectory = w.isDirectory := by
  funext place
  rw [isDirectory, h, isDirectory]

include hp in
theorem allows_congr : v.allows = w.allows := by
  funext access e
  rw [allows, hp, allows]

include h hp

theorem allowsAt_congr : v.allowsAt = w.allowsAt := by
  funext access place
  rw [allowsAt, h, allows_congr hp, allowsAt]

theorem walk_congr : ∀ (names : List Bytes) (place : Place), v.walk place names = w.walk place names
  | [], _ => rfl
  | name :: names, place => by
    rw [walk, walk, isDirectory_congr h, allowsAt_congr h hp, h, walk_congr, walk_congr, walk_congr]

theorem locate_congr : v.locate = w.locate := by
  funext path
  simp only [locate, walk_congr h hp, isDirectory_congr h]

theorem openDirectory_congr : v.openDirectory = w.openDirectory := by
  funext path
  simp only [openDirectory, locate_congr h hp, allowsAt_congr h hp, isDirectory_congr h]

theorem content?_congr : v.content? = w.content? := by
  funext path
  simp only [content?, find, locate_congr h hp, h, allows_congr hp]

end Listing

end Volume

end OfflineTx
