import Mathlib.Data.Set.Function
import OfflineTx.Proofs.Bytes
import OfflineTx.Proofs.Radix
import OfflineTx.Text.Base58

/-!
# Base-58 text and bytes

The leading zeros of a byte string stand for themselves, and the rest is a number whose digits the
text shows (`textOf`). The places counted for the digits always suffice (`pow_le_pow_textPlaces`,
`pow_le_pow_bytePlaces`), so writing fails for want of room alone (`encode?_eq`), and reading does
too, or because of a character that is no digit (`decode?_eq_none_iff`). Each text over the alphabet
is that of one byte string (`exists_textOf_eq`, `textOf_injective`).
-/

namespace OfflineTx

namespace Base58

section Run

variable {c : UInt8}

theorem length_takeWhile_run : ∀ (n : Nat) {bs : Bytes}, bs.head? ≠ some c →
    ((List.replicate n c ++ bs).takeWhile (· == c)).length = n
  | 0, [], _ => rfl
  | 0, b :: bs, h => by
    have hb : ¬(b == c) = true := fun hb => h (congrArg some (eq_of_beq hb))
    rw [List.replicate_zero, List.nil_append, List.takeWhile_cons, if_neg hb]
    rfl
  | n + 1, bs, h => by
    have hc : (c == c) = true := beq_self_eq_true c
    rw [List.replicate_succ, List.cons_append, List.takeWhile_cons, if_pos hc, List.length_cons,
      length_takeWhile_run n h]

/-- Bytes are a run of `c` and a rest that begins otherwise. -/
theorem exists_run (c : UInt8) : ∀ bs : Bytes, ∃ n rest,
    bs = List.replicate n c ++ rest ∧ rest.head? ≠ some c
  | [] => ⟨0, [], rfl, nofun⟩
  | b :: bs => by
    by_cases hb : b = c
    · obtain ⟨n, rest, rfl, hrest⟩ := exists_run c bs
      exact ⟨n + 1, rest, by rw [hb]; rfl, hrest⟩
    · exact ⟨0, b :: bs, rfl, fun h => hb (Option.some.inj h)⟩

end Run

section Alphabet

variable {c : UInt8} {v : Nat} {text : Bytes} {ds : List Nat}

theorem digitValue?_digit : ∀ v < 58, digitValue? (digit v) = some v := by decide

theorem digitValue?_eq_some_iff : digitValue? c = some v ↔ v < 58 ∧ c = digit v := by
  constructor
  · intro h
    obtain ⟨hv, hc, -⟩ := List.findIdx?_eq_some_iff_getElem.1 h
    refine ⟨hv, ?_⟩
    rw [digit, List.getD_eq_getElem?_getD, List.getElem?_eq_getElem hv, Option.getD_some,
      eq_of_beq hc]
  · rintro ⟨hv, rfl⟩
    exact digitValue?_digit v hv

theorem digitValue?_eq_none_iff : digitValue? c = none ↔ c ∉ alphabet := by
  rw [digitValue?, List.findIdx?_eq_none_iff]
  constructor
  · intro h hc
    exact absurd (h c hc) (by simp)
  · rintro h x hx
    exact beq_false_of_ne (ne_of_mem_of_not_mem hx h)

theorem digit_mem (hv : v < 58) : digit v ∈ alphabet := by
  by_contra h
  rw [← digitValue?_eq_none_iff, digitValue?_digit v hv] at h
  cases h

theorem exists_digit (hc : c ∈ alphabet) : ∃ v < 58, c = digit v := by
  rcases h : digitValue? c with _ | v
  · exact absurd hc (digitValue?_eq_none_iff.1 h)
  · exact ⟨v, digitValue?_eq_some_iff.1 h⟩

theorem digit_eq_one_iff (hv : v < 58) : digit v = 49 ↔ v = 0 := by
  refine ⟨fun h => ?_, fun h => h ▸ rfl⟩
  have h0 := digitValue?_digit v hv
  rw [h] at h0
  exact (Option.some.inj h0).symm

theorem mapM_digitValue?_map : ∀ {ds : List Nat}, (∀ d ∈ ds, d < 58) →
    (ds.map digit).mapM digitValue? = some ds
  | [], _ => rfl
  | d :: ds, h => by
    obtain ⟨hd, hds⟩ := List.forall_mem_cons.1 h
    rw [List.map_cons, List.mapM_cons, digitValue?_digit d hd, mapM_digitValue?_map hds]
    rfl

theorem mapM_digitValue?_of_not_mem {text : Bytes} (h : ∃ c ∈ text, c ∉ alphabet) :
    text.mapM digitValue? = none := by
  obtain ⟨c, hc, hnot⟩ := h
  exact Bytes.mapM_eq_none hc (digitValue?_eq_none_iff.2 hnot)

theorem exists_digits : ∀ {text : Bytes}, (∀ c ∈ text, c ∈ alphabet) →
    ∃ ds : List Nat, (∀ d ∈ ds, d < 58) ∧ text = ds.map digit
  | [], _ => ⟨[], nofun, rfl⟩
  | c :: text, h => by
    obtain ⟨hc, htext⟩ := List.forall_mem_cons.1 h
    obtain ⟨v, hv, rfl⟩ := exists_digit hc
    obtain ⟨ds, hds, rfl⟩ := exists_digits htext
    exact ⟨v :: ds, List.forall_mem_cons.2 ⟨hv, hds⟩, rfl⟩

end Alphabet

section Places

/-- A power is below another one whose base is greater by as much as its exponent is less. -/
theorem pow_le_pow_places {a b x y : Nat} (hb : 0 < b) (hy : 0 < y) (h : a ^ y ≤ b ^ x)
    (n : Nat) : a ^ n ≤ b ^ (n * x / y + 1) := by
  refine (Nat.pow_le_pow_iff_left (Nat.ne_of_gt hy)).1 ?_
  have hdiv := Nat.lt_mul_div_succ (n * x) hy
  calc (a ^ n) ^ y = (a ^ y) ^ n := by rw [← Nat.pow_mul, ← Nat.pow_mul, Nat.mul_comm]
    _ ≤ (b ^ x) ^ n := Nat.pow_le_pow_left h n
    _ = b ^ (n * x) := by rw [← Nat.pow_mul, Nat.mul_comm]
    _ ≤ b ^ (y * (n * x / y + 1)) := Nat.pow_le_pow_right hb (Nat.le_of_lt hdiv)
    _ = (b ^ (n * x / y + 1)) ^ y := by rw [← Nat.pow_mul, Nat.mul_comm]

theorem pow_le_pow_textPlaces (n : Nat) : 256 ^ n ≤ 58 ^ textPlaces n :=
  pow_le_pow_places (by decide) (by decide) (by decide +kernel) n

theorem pow_le_pow_bytePlaces (n : Nat) : 58 ^ n ≤ 256 ^ bytePlaces n :=
  pow_le_pow_places (by decide) (by decide) (by decide +kernel) n

end Places

section Text

variable {bs text : Bytes} {ds : List Nat} {n : Nat} {room : Int}

/-- A `1` for each leading zero byte, and the base-58 digits of the rest read as a number, highest
first and without leading zeros. -/
def textOf (bs : Bytes) : Bytes :=
  let zeros := (bs.takeWhile (· == 0)).length
  List.replicate zeros 49 ++
    (Nat.digits 58 (Bytes.toNatBE (bs.drop zeros))).reverse.map digit

theorem toNatBE_eq_value (bs : Bytes) : Bytes.toNatBE bs = Radix.value 256 (bs.map (·.toNat)) := by
  rw [Bytes.toNatBE, Radix.value, List.foldl_map]

theorem toNatBE_lt (bs : Bytes) : Bytes.toNatBE bs < 256 ^ bs.length := by
  have h := Bytes.toNatLE_lt bs.reverse
  rwa [← Bytes.toNatBE_eq, List.length_reverse] at h

/-- Bytes without a leading zero are the base-256 digits of their number. -/
theorem digits_toNatBE (h : bs.head? ≠ some 0) :
    (Nat.digits 256 (Bytes.toNatBE bs)).reverse = bs.map (·.toNat) := by
  have hnumeral : Radix.Numeral 256 (bs.map (·.toNat)) := by
    refine ⟨fun d hd => ?_, ?_⟩
    · obtain ⟨b, -, rfl⟩ := List.mem_map.1 hd
      exact b.toNat_lt
    rw [List.head?_map]
    intro hhead
    obtain ⟨b, hb, hzero⟩ := Option.map_eq_some_iff.1 hhead
    exact h (by rw [hb, UInt8.toNat_inj.1 (show b.toNat = (0 : UInt8).toNat from hzero)])
  rw [toNatBE_eq_value, ← hnumeral.eq_digits (by decide)]

theorem map_toUInt8_toNat (bs : Bytes) : (bs.map (·.toNat)).map Nat.toUInt8 = bs := by
  rw [List.map_map]
  exact List.map_id'' (fun b => UInt8.ofNat_toNat) bs

theorem textOf_run (n : Nat) (h : bs.head? ≠ some 0) :
    textOf (List.replicate n 0 ++ bs) =
      List.replicate n 49 ++ (Nat.digits 58 (Bytes.toNatBE bs)).reverse.map digit := by
  rw [textOf, length_takeWhile_run n h, List.drop_left' List.length_replicate]

theorem head?_map_digit (h : Radix.Numeral 58 ds) : (ds.map digit).head? ≠ some 49 := by
  rw [List.head?_map]
  intro hhead
  obtain ⟨d, hd, hone⟩ := Option.map_eq_some_iff.1 hhead
  have hlt := h.lt d (List.mem_of_mem_head? hd)
  exact h.head (by rw [hd, (digit_eq_one_iff hlt).1 hone])

theorem encode?_eq (room : Int) (bs : Bytes) : encode? room bs =
    if bs = [] ∨ room < (textOf bs).length + 1 then none else some (textOf bs) := by
  unfold encode?
  split
  · rename_i h
    rw [if_pos (.inl (List.isEmpty_iff.1 h))]
  · rename_i h
    rw [List.isEmpty_iff] at h
    have hfits := Nat.lt_of_lt_of_le (toNatBE_lt (bs.drop (bs.takeWhile (· == 0)).length))
      (pow_le_pow_textPlaces _)
    simp only [Radix.digits?_eq (show 1 < 58 by decide), if_pos hfits, or_iff_right h]
    rfl

theorem decode?_run (room : Int) (n : Nat) (h : Radix.Numeral 58 ds) :
    decode? room (List.replicate n 49 ++ ds.map digit) =
      let bs := List.replicate n 0 ++
        (Nat.digits 256 (Radix.value 58 ds)).reverse.map Nat.toUInt8
      if room < bs.length then none else some bs := by
  have hfits := Nat.lt_of_lt_of_le (Radix.value_lt (by decide) h.lt) (pow_le_pow_bytePlaces _)
  unfold decode?
  simp only [length_takeWhile_run n (head?_map_digit h), List.drop_left' List.length_replicate,
    mapM_digitValue?_map h.lt, List.length_map, Radix.digits?_eq (show 1 < 256 by decide),
    if_pos hfits]

theorem decode?_textOf (room : Int) (bs : Bytes) :
    decode? room (textOf bs) = if room < bs.length then none else some bs := by
  obtain ⟨n, rest, rfl, hrest⟩ := exists_run 0 bs
  rw [textOf_run n hrest, decode?_run room n (Radix.numeral_digits (by decide) _),
    Radix.value_digits, digits_toNatBE hrest, map_toUInt8_toNat]

theorem decode?_of_not_mem (room : Int) (h : ∃ c ∈ text, c ∉ alphabet) :
    decode? room text = none := by
  obtain ⟨n, rest, rfl, hrest⟩ := exists_run 49 text
  have hnot : ∃ c ∈ rest, c ∉ alphabet := by
    obtain ⟨c, hc, hnot⟩ := h
    rcases List.mem_append.1 hc with hc | hc
    · rw [List.eq_of_mem_replicate hc] at hnot
      exact absurd (by decide) hnot
    · exact ⟨c, hc, hnot⟩
  unfold decode?
  simp only [length_takeWhile_run n hrest, List.drop_left' List.length_replicate,
    mapM_digitValue?_of_not_mem hnot]

theorem textOf_alphabet (bs : Bytes) : ∀ c ∈ textOf bs, c ∈ alphabet := by
  intro c hc
  rcases List.mem_append.1 hc with hc | hc
  · rw [List.eq_of_mem_replicate hc]
    decide
  · obtain ⟨d, hd, rfl⟩ := List.mem_map.1 hc
    exact digit_mem ((Radix.numeral_digits (by decide) _).lt d hd)

/-- The bytes of a number, without a leading zero. -/
theorem toNatBE_digits (n : Nat) :
    let bs := (Nat.digits 256 n).reverse.map Nat.toUInt8
    Bytes.toNatBE bs = n ∧ bs.head? ≠ some 0 := by
  have hnumeral := Radix.numeral_digits (b := 256) (by decide) n
  have htoNat : ∀ d ∈ (Nat.digits 256 n).reverse, d.toUInt8.toNat = d :=
    fun d hd => UInt8.toNat_ofNat_of_lt' (hnumeral.lt d hd)
  have hmap : ((Nat.digits 256 n).reverse.map Nat.toUInt8).map (·.toNat) =
      (Nat.digits 256 n).reverse := by
    rw [List.map_map]
    exact (List.map_congr_left htoNat).trans (List.map_id _)
  refine ⟨?_, ?_⟩
  · rw [toNatBE_eq_value, hmap, Radix.value_digits]
  · rw [List.head?_map]
    intro hhead
    obtain ⟨d, hd, hzero⟩ := Option.map_eq_some_iff.1 hhead
    have hd0 := htoNat d (List.mem_of_mem_head? hd)
    rw [hzero] at hd0
    exact hnumeral.head (by rw [hd, ← hd0]; rfl)

theorem exists_textOf_eq (h : ∀ c ∈ text, c ∈ alphabet) :
    ∃ bs, textOf bs = text ∧ bs.length ≤ text.length := by
  obtain ⟨n, rest, rfl, hrest⟩ := exists_run 49 text
  obtain ⟨ds, hds, rfl⟩ := exists_digits fun c hc => h c (List.mem_append_right _ hc)
  have hnumeral : Radix.Numeral 58 ds := by
    refine ⟨hds, fun hhead => hrest ?_⟩
    rw [List.head?_map, hhead]
    rfl
  obtain ⟨hvalue, hhead⟩ := toNatBE_digits (Radix.value 58 ds)
  refine ⟨_, (textOf_run n hhead).trans ?_, ?_⟩
  · rw [hvalue, ← hnumeral.eq_digits (by decide)]
  -- A number has no more digits to the greater base.
  · have hlt : Radix.value 58 ds < 256 ^ ds.length := Nat.lt_of_lt_of_le
      (Radix.value_lt (by decide) hds) (Nat.pow_le_pow_left (by decide) _)
    have hlen := (Nat.digits_length_le_iff (b := 256) (by decide) _).2 hlt
    simp only [List.length_append, List.length_replicate, List.length_map, List.length_reverse]
    omega

theorem eq_textOf_of_decode? (h : decode? room text = some bs) : text = textOf bs := by
  by_cases halphabet : ∀ c ∈ text, c ∈ alphabet
  · obtain ⟨bs', rfl, -⟩ := exists_textOf_eq halphabet
    rw [decode?_textOf] at h
    split at h
    · cases h
    · rw [Option.some.inj h]
  · push Not at halphabet
    rw [decode?_of_not_mem room halphabet] at h
    cases h

theorem length_textOf_le (bs : Bytes) : (textOf bs).length ≤ textPlaces bs.length := by
  obtain ⟨n, rest, rfl, hrest⟩ := exists_run 0 bs
  have hlt := Nat.lt_of_lt_of_le (toNatBE_lt rest) (pow_le_pow_textPlaces _)
  have hlen := (Nat.digits_length_le_iff (b := 58) (by decide) _).2 hlt
  rw [textOf_run n hrest]
  simp only [List.length_append, List.length_replicate, List.length_map, List.length_reverse]
  unfold textPlaces at hlen ⊢
  omega

theorem textOf_injective : Function.Injective textOf := by
  intro as bs h
  have has := decode?_textOf as.length as
  have hbs := decode?_textOf as.length bs
  rw [if_neg (lt_irrefl _)] at has
  rw [← h, has] at hbs
  split at hbs
  · cases hbs
  · exact Option.some.inj hbs

theorem length_le_textOf (bs : Bytes) : bs.length ≤ (textOf bs).length := by
  obtain ⟨bs', h, hle⟩ := exists_textOf_eq (textOf_alphabet bs)
  rwa [textOf_injective h] at hle

theorem decode?_eq_none_iff : decode? room text = none ↔
    (∃ c ∈ text, c ∉ alphabet) ∨ ∃ bs, textOf bs = text ∧ room < bs.length := by
  constructor
  · intro h
    by_cases halphabet : ∀ c ∈ text, c ∈ alphabet
    · obtain ⟨bs, rfl, -⟩ := exists_textOf_eq halphabet
      rw [decode?_textOf] at h
      split at h
      · rename_i hroom
        exact .inr ⟨bs, rfl, hroom⟩
      · cases h
    · push Not at halphabet
      exact .inl halphabet
  · rintro (h | ⟨bs, rfl, hroom⟩)
    · exact decode?_of_not_mem room h
    · rw [decode?_textOf, if_pos hroom]

end Text

end Base58

namespace FixedBytes

open Base58

variable {n : Nat} {text : Bytes} {a : FixedBytes n}

theorem toBase58_eq (hn : 3 ≤ n) (a : FixedBytes n) : a.toBase58 = textOf a.bytes := by
  have hlen := length_textOf_le a.bytes
  have hne : a.bytes ≠ [] := List.ne_nil_of_length_pos (by rw [a.length_eq]; omega)
  rw [a.length_eq] at hlen
  unfold textPlaces at hlen
  rw [toBase58, encode?_eq, if_neg, Option.getD_some]
  rintro (hnil | hroom)
  · exact hne hnil
  · omega

theorem ofBase58?_eq_some_iff (hn : 3 ≤ n) : ofBase58? n text = some a ↔ text = a.toBase58 := by
  rw [toBase58_eq hn, ofBase58?, Option.bind_eq_some_iff]
  constructor
  · rintro ⟨bs, hdecode, hbs⟩
    rw [← ofBytes?_eq_some_iff.1 hbs]
    exact eq_textOf_of_decode? hdecode
  · rintro rfl
    refine ⟨a.bytes, ?_, ofBytes?_bytes a⟩
    rw [decode?_textOf, if_neg (by rw [a.length_eq]; omega)]

end FixedBytes

namespace Base58

/-- Byte strings and texts over the alphabet stand for one another, writing and reading follow that
up to the room there is, and the places that are counted for the digits suffice. -/
structure Faithful : Prop where
  bijective : Set.BijOn textOf Set.univ {text | ∀ c ∈ text, c ∈ alphabet}
  length_le : ∀ bs, bs.length ≤ (textOf bs).length
  written : ∀ room bs, encode? room bs =
    if bs = [] ∨ room < (textOf bs).length + 1 then none else some (textOf bs)
  read : ∀ room bs, decode? room (textOf bs) = if room < bs.length then none else some bs
  unread : ∀ room text, decode? room text = none ↔
    (∃ c ∈ text, c ∉ alphabet) ∨ ∃ bs, textOf bs = text ∧ room < bs.length
  rewritten : ∀ text, (∀ c ∈ text, c ∈ alphabet) → ∃ bs, bs.length ≤ text.length ∧
    decode? (text.length + 1) text = some bs ∧ (encode? (text.length + 1) bs).getD [] = text
  textFits : ∀ bs : Bytes, Radix.convert? 58 256 (textPlaces bs.length) (bs.map (·.toNat)) =
    some (Nat.digits 58 (Bytes.toNatBE bs)).reverse
  bytesFit : ∀ ds : List Nat, (∀ d ∈ ds, d < 58) →
    Radix.convert? 256 58 (bytePlaces ds.length) ds =
      some (Nat.digits 256 (Radix.value 58 ds)).reverse
  hash : ∀ text (a : Hash), FixedBytes.ofBase58? 32 text = some a ↔ text = a.toBase58
  signature : ∀ text (a : Signature), FixedBytes.ofBase58? 64 text = some a ↔ text = a.toBase58

theorem faithful : Faithful where
  bijective := by
    refine ⟨fun bs _ => textOf_alphabet bs, textOf_injective.injOn, fun text htext => ?_⟩
    obtain ⟨bs, hbs, -⟩ := exists_textOf_eq htext
    exact ⟨bs, trivial, hbs⟩
  length_le := length_le_textOf
  written := encode?_eq
  read := decode?_textOf
  unread _ _ := decode?_eq_none_iff
  rewritten text htext := by
    obtain ⟨bs, rfl, hle⟩ := exists_textOf_eq htext
    refine ⟨bs, hle, ?_, ?_⟩
    · rw [decode?_textOf, if_neg (by omega)]
    · rw [encode?_eq]
      split
      · rename_i h
        obtain rfl : bs = [] := h.resolve_right (lt_irrefl _)
        rfl
      · rfl
  textFits bs := by
    have hlt := Nat.lt_of_lt_of_le (toNatBE_lt bs) (pow_le_pow_textPlaces _)
    rw [Radix.convert?_eq (by decide) (by decide), ← toNatBE_eq_value,
      Radix.digits?_eq (by decide), if_pos hlt]
  bytesFit ds hds := by
    have hlt := Nat.lt_of_lt_of_le (Radix.value_lt (by decide) hds) (pow_le_pow_bytePlaces _)
    rw [Radix.convert?_eq (by decide) (by decide), Radix.digits?_eq (by decide), if_pos hlt]
  hash _ _ := FixedBytes.ofBase58?_eq_some_iff (by decide)
  signature _ _ := FixedBytes.ofBase58?_eq_some_iff (by decide)

end Base58

end OfflineTx
