import OfflineTx.KeyStore.Basic
import OfflineTx.Proofs.KeyFile
import OfflineTx.Proofs.Volume

/-!
# What is left of a key file

The system may take a key file in pieces, stop before the end, or keep the mode of a new file. If
nothing fails the file is complete (`left_of_completes`), and otherwise a file with a beginning of
the text stays (`left_of_not_completes`). Since only the last byte of the text is a closing bracket,
no beginning but the whole is the text of a pair (`KeyFile.parse?_of_prefix`).
-/

namespace OfflineTx

namespace KeyFile

variable {k : KeyPair} {bs text : Bytes}

theorem not_mem_of_item {b : UInt8} (h : Item b text) : 93 ∉ text := by
  obtain ⟨hbefore, -, -, -, hafter⟩ := h
  have hblank : (93 : UInt8) ∉ blanks := by decide
  intro hmem
  rcases List.mem_append.1 hmem with hmem | hmem
  · exact hblank (hbefore hmem)
  · rcases List.mem_append.1 hmem with hmem | hmem
    · exact absurd (isDigit_of_mem hmem) (by decide)
    · exact hblank (hafter hmem)

theorem not_mem_of_items (h : Items bs text) : 93 ∉ text := by
  induction h with
  | last h => exact not_mem_of_item h
  | cons h _ ih =>
    simp only [List.mem_append, List.mem_cons, not_or]
    exact ⟨not_mem_of_item h, by decide, ih⟩

theorem parse?_of_prefix (h : text <+: render k) (hne : text ≠ render k) : parse? text = none := by
  obtain ⟨b, bs, hbs⟩ := List.exists_cons_of_length_eq_add_one k.length_bytes
  have hrender : render k =
      91 :: [(44 : UInt8)].intercalate (k.bytes.map fun b => Decimal.ofNat b.toNat) ++ [93] := rfl
  have hclose : (93 : UInt8) ∉ text := by
    rw [hrender] at h hne
    intro hmem
    have hmem' := ((List.prefix_concat_iff.1 h).resolve_left hne).subset hmem
    rw [hbs, List.mem_cons] at hmem'
    exact not_mem_of_items (items_intercalate bs b) (hmem'.resolve_left (by decide))
  rw [Option.eq_none_iff_forall_ne_some]
  intro k' hk'
  obtain ⟨before, items, after, -, -, rfl⟩ := parse?_eq_some_iff.1 hk'
  exact hclose (by simp)

end KeyFile

namespace KeyStore

namespace Writing

variable {writes : List (Except Int Nat)} {text : Bytes}

theorem isPrefix_taken : ∀ (writes : List (Except Int Nat)) (text : Bytes),
    (taken writes text).1 <+: text
  | _, [] => by simp [taken]
  | [], b :: text => List.prefix_rfl
  | .error number :: writes, b :: text => List.nil_prefix
  | .ok n :: writes, b :: text => by
    have hrest := (List.prefix_append_right_inj ((b :: text).take n)).2
      (isPrefix_taken writes ((b :: text).drop n))
    rwa [List.take_append_drop] at hrest

/-- The whole text is taken unless a write fails. -/
theorem taken_eq_iff : ∀ (writes : List (Except Int Nat)) (text : Bytes),
    (taken writes text).1 = text ↔ (taken writes text).2 = none
  | _, [] => by simp [taken]
  | [], b :: text => by simp [taken]
  | .error number :: writes, b :: text =>
    show [] = b :: text ↔ some number = none from ⟨nofun, nofun⟩
  | .ok n :: writes, b :: text => by
    have hsplit : (b :: text).take n ++ (b :: text).drop n = b :: text := List.take_append_drop n _
    change (b :: text).take n ++ (taken writes ((b :: text).drop n)).1 = b :: text ↔
      (taken writes ((b :: text).drop n)).2 = none
    rw [← taken_eq_iff writes]
    constructor
    · intro h
      exact List.append_cancel_left (h.trans hsplit.symm)
    · intro h
      exact (congrArg _ h).trans hsplit

/-- Nothing fails when the file of the pair is written. -/
def Completes (w : Writing) (k : KeyPair) : Prop :=
  (w.left (KeyFile.render k)).failed = none

variable {w : Writing} {k : KeyPair}

theorem left_of_completes (h : w.Completes k) :
    w.left (KeyFile.render k) =
      { mode := keyFileMode, content := KeyFile.render k, failed := none } := by
  unfold Completes left at h
  unfold left
  split at h
  · cases h
  · cases h
  · rename_i htaken hunsealed
    have hwhole := (taken_eq_iff w.writes (KeyFile.render k)).2 (congrArg Prod.snd htaken)
    rw [htaken] at hwhole
    exact congrArg (Left.mk keyFileMode · none) hwhole

/-- A file that was not completed may be read and written by its owner, and holds a beginning of the
text. -/
theorem left_of_not_completes (h : ¬w.Completes k) : ∃ content number,
    content <+: KeyFile.render k ∧
      w.left (KeyFile.render k) = { mode := newFileMode, content, failed := some number } := by
  have hprefix := isPrefix_taken w.writes (KeyFile.render k)
  unfold Completes left at h
  unfold left
  split at h
  · rename_i htaken
    rw [htaken] at hprefix
    exact ⟨_, _, hprefix, rfl⟩
  · rename_i htaken _
    rw [htaken] at hprefix
    exact ⟨_, _, hprefix, rfl⟩
  · exact absurd rfl h

theorem completes_complete (k : KeyPair) : complete.Completes k := by
  have htaken : taken complete.writes (KeyFile.render k) = (KeyFile.render k, none) := rfl
  rw [Completes, left, htaken]
  rfl

/-- Its owner may read what is left. -/
theorem left_mode (w : Writing) (k : KeyPair) :
    (w.left (KeyFile.render k)).mode &&& 0o400 ≠ 0 := by
  by_cases h : w.Completes k
  · rw [left_of_completes h]
    exact (by decide : keyFileMode &&& 0o400 ≠ 0)
  · obtain ⟨content, number, -, hleft⟩ := left_of_not_completes h
    rw [hleft]
    exact (by decide : newFileMode &&& 0o400 ≠ 0)

/-- What is left holds the pair, or no pair at all. -/
theorem parse?_left (w : Writing) (k : KeyPair) :
    KeyFile.parse? (w.left (KeyFile.render k)).content = some k ∨
      KeyFile.parse? (w.left (KeyFile.render k)).content = none := by
  have hprefix : (w.left (KeyFile.render k)).content <+: KeyFile.render k := by
    by_cases h : w.Completes k
    · rw [left_of_completes h]
    · obtain ⟨content, number, hcontent, hleft⟩ := left_of_not_completes h
      rw [hleft]
      exact hcontent
  by_cases hwhole : (w.left (KeyFile.render k)).content = KeyFile.render k
  · exact .inl (by rw [hwhole, KeyFile.parse?_render])
  · exact .inr (KeyFile.parse?_of_prefix hprefix hwhole)

end Writing

variable {v u : Volume} {file : Bytes} {k : KeyPair} {writing : Writing}

/-- The file of a pair cannot be made, or it is made and stays. -/
theorem writeKeyFile_cases (v : Volume) (file : Bytes) (k : KeyPair) (writing : Writing) :
    let left := writing.left (KeyFile.render k)
    (∃ number, v.makeFile file left.mode left.content = .error number ∧
      writeKeyFile v file k writing = (.error number, v)) ∨
    ∃ u, v.makeFile file left.mode left.content = .ok u ∧
      ((writing.Completes k ∧ writeKeyFile v file k writing = (.ok (), u)) ∨
        ¬writing.Completes k ∧ ∃ number, writeKeyFile v file k writing = (.error number, u)) := by
  unfold writeKeyFile Writing.Completes
  dsimp only
  generalize writing.left (KeyFile.render k) = left
  rcases v.makeFile file left.mode left.content with number | u
  · exact .inl ⟨number, rfl, rfl⟩
  · rcases left.failed with _ | number
    · exact .inr ⟨u, rfl, .inl ⟨rfl, rfl⟩⟩
    · exact .inr ⟨u, rfl, .inr ⟨nofun, number, rfl⟩⟩

/-- A file that can be made stays, whether it is completed or not. -/
theorem volume_writeKeyFile
    (hmake : v.makeFile file (writing.left (KeyFile.render k)).mode
      (writing.left (KeyFile.render k)).content = .ok u) :
    (writeKeyFile v file k writing).2 = u := by
  obtain ⟨number, herror, -⟩ | ⟨u', hok, ⟨-, hwrite⟩ | ⟨-, number, hwrite⟩⟩ :=
    writeKeyFile_cases v file k writing
  · cases herror.symm.trans hmake
  · rw [hwrite]
    exact Except.ok.inj (hok.symm.trans hmake)
  · rw [hwrite]
    exact Except.ok.inj (hok.symm.trans hmake)

/-- A file that is not completed is made only if the system does not take it. -/
theorem eq_of_writeKeyFile_eq_error {number : Int} (hcompletes : writing.Completes k)
    (h : writeKeyFile v file k writing = (.error number, u)) : u = v := by
  obtain ⟨number', -, hwrite⟩ | ⟨u', -, ⟨-, hwrite⟩ | ⟨hfails, -⟩⟩ :=
    writeKeyFile_cases v file k writing
  · cases hwrite.symm.trans h
    rfl
  · cases hwrite.symm.trans h
  · exact absurd hcompletes hfails

theorem extends_writeKeyFile (v : Volume) (file : Bytes) (k : KeyPair) (writing : Writing) :
    v.Extends (writeKeyFile v file k writing).2 := by
  obtain ⟨number, -, hwrite⟩ | ⟨u, hmake, ⟨-, hwrite⟩ | ⟨-, number, hwrite⟩⟩ :=
    writeKeyFile_cases v file k writing
  · exact hwrite ▸ Volume.extends_refl v
  · exact hwrite ▸ Volume.extends_makeFile hmake
  · exact hwrite ▸ Volume.extends_makeFile hmake

theorem writeKeyFile_eq_ok_iff : writeKeyFile v file k writing = (.ok (), u) ↔
    writing.Completes k ∧ v.makeFile file keyFileMode (KeyFile.render k) = .ok u := by
  obtain ⟨number, hmake, hwrite⟩ | ⟨u', hmake, ⟨hcompletes, hwrite⟩ | ⟨hfails, number, hwrite⟩⟩ :=
    writeKeyFile_cases v file k writing
  · rw [hwrite]
    refine ⟨nofun, fun ⟨hcompletes, hmade⟩ => ?_⟩
    rw [Writing.left_of_completes hcompletes] at hmake
    cases hmake.symm.trans hmade
  · rw [Writing.left_of_completes hcompletes] at hmake
    rw [hwrite, hmake]
    simp [hcompletes]
  · rw [hwrite]
    exact ⟨nofun, fun h => absurd h.1 hfails⟩

end KeyStore

end OfflineTx
