import Mathlib.Data.List.TakeWhile
import OfflineTx.Key.File
import OfflineTx.Proofs.Radix

/-!
# Which texts are key files

The form of a key file is given as a grammar (`Spells`): items between brackets, each a byte in one
to three decimal digits with white space around it. A text is read item by item, and an item is
read wherever something follows that is neither a digit nor white space (`item?_of_item`), as are
the comma and the bracket behind an item. So a text is read exactly if the grammar gives it 64
values (`parse?_eq_some_iff`), and what is written for a pair is such a text (`spells_render`).
-/

namespace OfflineTx.KeyFile

section Grammar

/-- Space, tab, line feed, vertical tab, form feed and carriage return. -/
def blanks : Bytes :=
  [32, 9, 10, 11, 12, 13]

def digit (d : Fin 10) : UInt8 :=
  .ofNat (48 + d)

/-- One to three digits whose value is the byte, between white space. Leading zeros count as
digits. -/
inductive Item (b : UInt8) : Bytes → Prop
  | spelled {before after : Bytes} {ds : List (Fin 10)} (hbefore : before ⊆ blanks)
    (hne : ds ≠ []) (hlen : ds.length ≤ 3) (hvalue : Radix.value 10 (ds.map Fin.val) = b.toNat)
    (hafter : after ⊆ blanks) : Item b (before ++ (ds.map digit ++ after))

/-- Items with a comma between any two. -/
inductive Items : Bytes → Bytes → Prop
  | last {b : UInt8} {text : Bytes} (h : Item b text) : Items [b] text
  | cons {b : UInt8} {bs text rest : Bytes} (h : Item b text) (hrest : Items bs rest) :
    Items (b :: bs) (text ++ 44 :: rest)

/-- The text begins with items of these values between brackets. White space may stand before the
first bracket and anything behind the last. -/
def Spells (text bs : Bytes) : Prop :=
  ∃ before items after, before ⊆ blanks ∧ Items bs items ∧
    text = before ++ 91 :: (items ++ 93 :: after)

end Grammar

variable {b c : UInt8} {bs text rest : Bytes}

section Characters

theorem isBlank_iff : isBlank b = true ↔ b ∈ blanks := by
  simp only [isBlank, blanks, List.mem_cons, List.not_mem_nil, or_false, Bool.or_eq_true,
    Bool.and_eq_true, beq_iff_eq, decide_eq_true_eq, UInt8.le_iff_toNat_le, ← UInt8.toNat_inj,
    UInt8.reduceToNat]
  omega

theorem toNat_digit (d : Fin 10) : (digit d).toNat = 48 + d := by
  rw [digit, UInt8.toNat_ofNat']
  omega

theorem isDigit_iff : Decimal.isDigit b = true ↔ ∃ d, digit d = b := by
  simp only [Decimal.isDigit, Bool.and_eq_true, decide_eq_true_eq, UInt8.le_iff_toNat_le,
    UInt8.reduceToNat]
  constructor
  · rintro ⟨hge, hle⟩
    refine ⟨⟨b.toNat - 48, by omega⟩, UInt8.toNat_inj.1 ?_⟩
    rw [toNat_digit]
    exact Nat.add_sub_cancel' hge
  · rintro ⟨d, rfl⟩
    rw [toNat_digit]
    omega

theorem isBlank_of_isDigit (h : Decimal.isDigit b = true) : isBlank b = false := by
  obtain ⟨d, rfl⟩ := isDigit_iff.1 h
  revert d
  decide

theorem exists_digits : ∀ bs : Bytes, (∀ b ∈ bs, Decimal.isDigit b = true) →
    ∃ ds : List (Fin 10), ds.map digit = bs
  | [], _ => ⟨[], rfl⟩
  | b :: bs, h => by
    obtain ⟨d, rfl⟩ := isDigit_iff.1 (h b List.mem_cons_self)
    obtain ⟨ds, rfl⟩ := exists_digits bs fun b hb => h b (List.mem_cons_of_mem _ hb)
    exact ⟨d :: ds, rfl⟩

theorem isDigit_of_mem {ds : List (Fin 10)} (h : b ∈ ds.map digit) : Decimal.isDigit b = true := by
  obtain ⟨d, -, rfl⟩ := List.mem_map.1 h
  exact isDigit_iff.2 ⟨d, rfl⟩

/-- Digits are read as their value modulo `2 ^ 64`. -/
theorem read_digits (ds : List (Fin 10)) :
    Decimal.read (ds.map digit) = .ofNat (Radix.value 10 (ds.map Fin.val)) := by
  have hfold : ∀ (ds : List (Fin 10)) (n : Nat),
      (ds.map digit).foldl (fun v b => v * 10 + (b - 48).toUInt64) (UInt64.ofNat n) =
        .ofNat ((ds.map Fin.val).foldl (fun n d => 10 * n + d) n) := by
    intro ds
    induction ds with
    | nil => exact fun n => rfl
    | cons d ds ih =>
      intro n
      have hdigit : (digit d - 48).toUInt64 = .ofNat d := by
        revert d
        decide
      rw [List.map_cons, List.map_cons, List.foldl_cons, List.foldl_cons, ← ih, hdigit,
        UInt64.ofNat_add, UInt64.ofNat_mul, UInt64.mul_comm]
      rfl
  have hall : (ds.map digit).all Decimal.isDigit = true :=
    List.all_eq_true.2 fun b => isDigit_of_mem
  rw [Decimal.read, if_pos hall]
  exact hfold ds 0

theorem toNat_read_digits {ds : List (Fin 10)} (h : ds.length ≤ 3) :
    (Decimal.read (ds.map digit)).toNat = Radix.value 10 (ds.map Fin.val) := by
  have hlt : Radix.value 10 (ds.map Fin.val) < 10 ^ (ds.map Fin.val).length :=
    Radix.value_lt (by decide) (by simp)
  have hpow : 10 ^ (ds.map Fin.val).length ≤ 10 ^ 3 :=
    Nat.pow_le_pow_right (by decide) (by simpa using h)
  rw [read_digits, UInt64.toNat_ofNat_of_lt']
  exact Nat.lt_of_lt_of_le hlt (Nat.le_trans hpow (by decide))

end Characters

section Items

theorem skipBlanks_append {before : Bytes} (h : before ⊆ blanks) (text : Bytes) :
    skipBlanks (before ++ text) = skipBlanks text :=
  List.dropWhile_append_of_pos fun _ hb => isBlank_iff.2 (h hb)

theorem skipBlanks_cons (h : isBlank c = false) : skipBlanks (c :: rest) = c :: rest := by
  rw [skipBlanks, List.dropWhile_cons_of_neg (by simp [h])]

/-- Skipping leaves out white space and nothing else. -/
theorem exists_skipBlanks (text : Bytes) :
    ∃ before, before ⊆ blanks ∧ text = before ++ skipBlanks text :=
  ⟨text.takeWhile isBlank, fun _ hb => isBlank_iff.1 (List.mem_takeWhile_imp hb),
    (List.takeWhile_append_dropWhile ..).symm⟩

theorem skipBlanks_digits {ds : List (Fin 10)} (hne : ds ≠ []) (text : Bytes) :
    skipBlanks (ds.map digit ++ text) = ds.map digit ++ text := by
  obtain ⟨d, ds, rfl⟩ := List.exists_cons_of_ne_nil hne
  exact skipBlanks_cons (isBlank_of_isDigit (isDigit_iff.2 ⟨d, rfl⟩))

/-- Digits are taken up to white space, or to what follows it. -/
theorem takeWhile_digits (ds : List (Fin 10)) {after : Bytes} (hafter : after ⊆ blanks)
    (hc : Decimal.isDigit c = false) :
    (ds.map digit ++ (after ++ c :: rest)).takeWhile Decimal.isDigit = ds.map digit := by
  have hstop : (after ++ c :: rest).takeWhile Decimal.isDigit = [] := by
    cases after with
    | nil => exact List.takeWhile_cons_of_neg (by simp [hc])
    | cons b after =>
      refine List.takeWhile_cons_of_neg fun hb => ?_
      have hblank := isBlank_iff.2 (hafter List.mem_cons_self)
      rw [isBlank_of_isDigit hb] at hblank
      cases hblank
  rw [List.takeWhile_append_of_pos fun b => isDigit_of_mem, hstop, List.append_nil]

theorem item?_of_item (h : Item b text) (hdigit : Decimal.isDigit c = false)
    (hblank : isBlank c = false) : item? (text ++ c :: rest) = some (b, c :: rest) := by
  obtain @⟨before, after, ds, hbefore, hne, hlen, hvalue, hafter⟩ := h
  have hstart : skipBlanks (before ++ (ds.map digit ++ after) ++ c :: rest) =
      ds.map digit ++ (after ++ c :: rest) := by
    rw [List.append_assoc, List.append_assoc, skipBlanks_append hbefore, skipBlanks_digits hne]
  have hend : skipBlanks (after ++ c :: rest) = c :: rest := by
    rw [skipBlanks_append hafter, skipBlanks_cons hblank]
  have hread := (toNat_read_digits hlen).trans hvalue
  have hsmall : ¬Decimal.read (ds.map digit) > 255 := by
    rw [gt_iff_lt, UInt64.lt_iff_toNat_lt, hread]
    exact Nat.not_lt.2 (Nat.le_of_lt_succ b.toNat_lt)
  have hbyte : (Decimal.read (ds.map digit)).toUInt8 = b := by
    rw [← UInt8.toNat_inj, UInt64.toNat_toUInt8, hread, Nat.mod_eq_of_lt b.toNat_lt]
  have hcond : ((ds.map digit).isEmpty || decide ((ds.map digit).length > 3) ||
      decide (Decimal.read (ds.map digit) > 255)) = false := by
    simp [hne, hlen, hsmall]
  simp only [item?, hstart, takeWhile_digits ds hafter hdigit, hcond, Bool.false_eq_true, if_false,
    hbyte, List.drop_left, hend]

theorem item_of_item? (h : item? text = some (b, rest)) :
    ∃ item, Item b item ∧ text = item ++ rest := by
  -- The text is taken apart from the left: blanks, digits, blanks, and what is not looked at.
  obtain ⟨before, hbefore, htext⟩ := exists_skipBlanks text
  obtain ⟨ds, hds⟩ := exists_digits ((skipBlanks text).takeWhile Decimal.isDigit)
    fun b hb => List.mem_takeWhile_imp hb
  obtain ⟨tail, htail⟩ : ∃ tail, skipBlanks text = ds.map digit ++ tail :=
    ⟨_, by rw [hds]; exact (List.takeWhile_append_dropWhile ..).symm⟩
  obtain ⟨after, hafter, hrest⟩ := exists_skipBlanks tail
  simp only [item?, ← hds] at h
  split at h
  · cases h
  · rename_i hcond
    rw [htail, List.drop_left] at h
    simp only [Bool.or_eq_true, not_or, decide_eq_true_eq, List.isEmpty_iff, List.map_eq_nil_iff,
      List.length_map, Option.some.injEq, Prod.mk.injEq] at h hcond
    obtain ⟨⟨hne, hlen⟩, hsmall⟩ := hcond
    obtain ⟨rfl, rfl⟩ := h
    have hlen' : ds.length ≤ 3 := Nat.le_of_not_lt hlen
    have hvalue : Radix.value 10 (ds.map Fin.val) =
        (Decimal.read (ds.map digit)).toUInt8.toNat := by
      have hle : (Decimal.read (ds.map digit)).toNat ≤ 255 :=
        UInt64.le_iff_toNat_le.1 (UInt64.not_lt.1 hsmall)
      rw [UInt64.toNat_toUInt8, Nat.mod_eq_of_lt (Nat.lt_succ_of_le hle), toNat_read_digits hlen']
    refine ⟨_, .spelled hbefore hne hlen' hvalue hafter, ?_⟩
    rw [List.append_assoc, List.append_assoc, ← hrest, ← htail]
    exact htext

example : item? [32, 48, 48, 55, 9, 44] = some (7, [44]) := by decide

/-- Leading zeros count against the three digits. -/
example : item? [48, 48, 48, 55, 44] = none := by decide

/-- Behind each item stands a comma or the closing bracket, and neither is part of an item. -/
theorem items?_of_items (h : Items bs text) :
    items? bs.length (text ++ 93 :: rest) = some bs := by
  induction h with
  | last h =>
    rw [List.length_singleton, items?, item?_of_item h (by decide) (by decide)]
    rfl
  | cons h _ ih =>
    rw [List.length_cons, items?, List.append_assoc, List.cons_append,
      item?_of_item h (by decide) (by decide)]
    simp [ih]

theorem items_of_items? : ∀ {n : Nat} {text bs : Bytes}, items? n text = some bs →
    bs.length = n ∧ ∃ items rest, Items bs items ∧ text = items ++ 93 :: rest
  | 0, text, bs, h => by cases h
  | n + 1, text, bs, h => by
    simp only [items?] at h
    split at h
    · rename_i b rest hitem
      obtain ⟨item, hi, rfl⟩ := item_of_item? hitem
      split at h
      · rename_i hn
        cases h
        exact ⟨by rw [hn]; rfl, item, rest, .last hi, rfl⟩
      · cases h
    · rename_i b rest hitem
      obtain ⟨item, hi, rfl⟩ := item_of_item? hitem
      obtain ⟨bs', hbs, rfl⟩ := Option.map_eq_some_iff.1 h
      obtain ⟨hlen, items, rest', his, rfl⟩ := items_of_items? hbs
      exact ⟨by rw [List.length_cons, hlen], item ++ 44 :: items, rest', .cons hi his, by simp⟩
    · cases h

end Items

variable {k : KeyPair}

theorem ofFixed_eq_iff {bs : FixedBytes 64} : KeyPair.ofFixed bs = k ↔ bs.bytes = k.bytes := by
  constructor
  · rintro rfl
    exact (KeyPair.bytes_ofFixed bs).symm
  · intro h
    obtain ⟨secret, address⟩ := k
    simp [KeyPair.ofFixed, h, KeyPair.bytes]

/-- The pair of a text is the one whose bytes the text spells. -/
theorem parse?_eq_some_iff : parse? text = some k ↔ Spells text k.bytes := by
  constructor
  · intro h
    obtain ⟨before, hbefore, htext⟩ := exists_skipBlanks text
    unfold parse? at h
    split at h
    · rename_i tail htail
      obtain ⟨values, hvalues, hread⟩ := Option.bind_eq_some_iff.1 h
      obtain ⟨bs, hfixed, hpair⟩ := Option.bind_eq_some_iff.1 hread
      obtain ⟨-, items, after, hitems, rfl⟩ := items_of_items? hvalues
      have hbytes : values = k.bytes :=
        (FixedBytes.ofBytes?_eq_some_iff.1 hfixed).trans (ofFixed_eq_iff.1 (Option.some.inj hpair))
      exact ⟨before, items, after, hbefore, hbytes ▸ hitems, by rw [← htail]; exact htext⟩
    · cases h
  · rintro ⟨before, items, after, hbefore, hitems, rfl⟩
    have hopen : skipBlanks (before ++ 91 :: (items ++ 93 :: after)) =
        91 :: (items ++ 93 :: after) := by
      rw [skipBlanks_append hbefore, skipBlanks_cons (by decide)]
    have hbytes : items? 64 (items ++ 93 :: after) = some k.bytes := by
      rw [← k.length_bytes]
      exact items?_of_items hitems
    have hfixed : FixedBytes.ofBytes? 64 k.bytes = some ⟨k.bytes, k.length_bytes⟩ :=
      FixedBytes.ofBytes?_bytes ⟨k.bytes, k.length_bytes⟩
    rw [parse?, hopen]
    simp [hbytes, hfixed, ofFixed_eq_iff]

section Written

theorem ofNat_spec : ∀ n < 256, (Decimal.ofNat n).all Decimal.isDigit = true ∧
    Decimal.ofNat n ≠ [] ∧ (Decimal.ofNat n).length ≤ 3 ∧
      (Decimal.read (Decimal.ofNat n)).toNat = n := by
  decide +kernel

theorem item_ofNat (b : UInt8) : Item b (Decimal.ofNat b.toNat) := by
  obtain ⟨hall, hne, hlen, hread⟩ := ofNat_spec b.toNat b.toNat_lt
  obtain ⟨ds, hds⟩ := exists_digits _ (List.all_eq_true.1 hall)
  rw [← hds, List.length_map] at hlen
  rw [← hds, toNat_read_digits hlen] at hread
  have hitem : Item b ([] ++ (ds.map digit ++ [])) := .spelled (List.nil_subset _)
    (fun hnil => hne (by rw [← hds, hnil]; rfl)) hlen hread (List.nil_subset _)
  simpa [hds] using hitem

theorem items_intercalate : ∀ (bs : Bytes) (b : UInt8), Items (b :: bs)
    ([(44 : UInt8)].intercalate ((b :: bs).map fun b => Decimal.ofNat b.toNat))
  | [], b => by simpa using Items.last (item_ofNat b)
  | b' :: bs, b => by
    have hitems := Items.cons (item_ofNat b) (items_intercalate bs b')
    simpa [List.intercalate_cons_cons] using hitems

theorem spells_render (k : KeyPair) : Spells (render k) k.bytes := by
  obtain ⟨b, bs, hbs⟩ := List.exists_cons_of_length_eq_add_one k.length_bytes
  refine ⟨[], _, [], List.nil_subset _, hbs ▸ items_intercalate bs b, ?_⟩
  simp [render, hbs]

theorem parse?_render (k : KeyPair) : parse? (render k) = some k :=
  parse?_eq_some_iff.2 (spells_render k)

end Written

/-- The texts read are those that spell 64 values, the pair read is the one with these bytes, and
what is written for a pair is read back. -/
theorem parse?_exact :
    (∀ text, (∃ k, parse? text = some k) ↔ ∃ bs, bs.length = 64 ∧ Spells text bs) ∧
      (∀ text k, parse? text = some k ↔ Spells text k.bytes) ∧
        ∀ k, parse? (render k) = some k := by
  refine ⟨fun text => ⟨?_, ?_⟩, fun _ _ => parse?_eq_some_iff, parse?_render⟩
  · rintro ⟨k, hk⟩
    exact ⟨k.bytes, k.length_bytes, parse?_eq_some_iff.1 hk⟩
  · rintro ⟨bs, hlen, hspells⟩
    refine ⟨.ofFixed ⟨bs, hlen⟩, parse?_eq_some_iff.2 ?_⟩
    rw [KeyPair.bytes_ofFixed]
    exact hspells

end OfflineTx.KeyFile
