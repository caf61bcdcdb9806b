import Mathlib.Data.List.TakeWhile
import OfflineTx.Proofs.Bytes
import OfflineTx.Text.Base64

/-!
# Base-64 text and bits

A text is a body over the alphabet and padding. The characters of the body are groups of six bits,
and its bytes are groups of eight of the same bits, as far as there are enough (`Packs`, `Spells`).
A body has bytes unless a character is left alone behind its groups of four (`exists_spells`), and
no others than these (`Packs.unique`). Reading takes just such texts (`decode?_eq_some_iff`), and
what is written is one of them (`written_encode`).
-/

namespace OfflineTx.Base64

section Bits

/-- The `w` lowest bits of a number, highest first. -/
def bits : Nat → Nat → List Bool
  | 0, _ => []
  | w + 1, n => n.testBit w :: bits w n

variable {u w x y : Nat}

@[simp] theorem length_bits : ∀ w n : Nat, (bits w n).length = w
  | 0, _ => rfl
  | w + 1, n => congrArg Nat.succ (length_bits w n)

theorem bits_mod : ∀ {u : Nat}, u ≤ w → bits u (x % 2 ^ w) = bits u x
  | 0, _ => rfl
  | u + 1, h => by
    have hlt : u < w := h
    rw [bits, bits, bits_mod (Nat.le_of_lt hlt), Nat.testBit_mod_two_pow, decide_eq_true hlt,
      Bool.true_and]

/-- The bits of a number are those above a place and those below it. -/
theorem bits_add (w x : Nat) : ∀ u : Nat, bits (u + w) x = bits u (x / 2 ^ w) ++ bits w x
  | 0 => by rw [Nat.zero_add]; rfl
  | u + 1 => by
    rw [Nat.succ_add, bits, bits, bits_add w x u, Nat.testBit_div_two_pow, List.cons_append]

theorem bits_fill (u w x : Nat) : bits (u + w) (x * 2 ^ w) = bits u x ++ bits w (x * 2 ^ w) := by
  rw [bits_add, Nat.mul_div_cancel x (Nat.two_pow_pos w)]

/-- Bits left over from a number, and the `w` highest of the next one behind them. -/
theorem bits_regroup (u w k x : Nat) (h : y < 2 ^ (w + k)) :
    bits u x ++ bits (w + k) y = bits (u + w) (x * 2 ^ w + y / 2 ^ k) ++ bits k y := by
  have hlt : y / 2 ^ k < 2 ^ w := by
    rwa [Nat.div_lt_iff_lt_mul (Nat.two_pow_pos k), ← Nat.pow_add]
  have hdiv : (x * 2 ^ w + y / 2 ^ k) / 2 ^ w = x := by
    rw [Nat.mul_comm, Nat.mul_add_div (Nat.two_pow_pos w), Nat.div_eq_of_lt hlt, Nat.add_zero]
  have hmod : bits w (x * 2 ^ w + y / 2 ^ k) = bits w (y / 2 ^ k) := by
    rw [← bits_mod (Nat.le_refl w), Nat.mul_comm, Nat.mul_add_mod, Nat.mod_eq_of_lt hlt]
  rw [bits_add k, bits_add w, hdiv, hmod, List.append_assoc]

theorem bits_inj : ∀ {w : Nat}, bits w x = bits w y → x % 2 ^ w = y % 2 ^ w
  | 0, _ => by rw [Nat.pow_zero, Nat.mod_one, Nat.mod_one]
  | w + 1, h => by
    obtain ⟨hbit, hrest⟩ := List.cons.inj h
    rw [Nat.mod_pow_succ, Nat.mod_pow_succ, ← Nat.toNat_testBit, ← Nat.toNat_testBit, hbit,
      bits_inj hrest]

theorem bits_toUInt8 (n : Nat) : bits 8 n.toUInt8.toNat = bits 8 n :=
  bits_mod (Nat.le_refl 8)

theorem length_flatMap_bits {α : Type} (w : Nat) (f : α → Nat) (xs : List α) :
    (xs.flatMap fun x => bits w (f x)).length = w * xs.length := by
  simp [List.length_flatMap, List.map_const', Nat.mul_comm]

def byteBits (bs : Bytes) : List Bool :=
  bs.flatMap fun b => bits 8 b.toNat

theorem length_byteBits (bs : Bytes) : (byteBits bs).length = 8 * bs.length :=
  length_flatMap_bits 8 UInt8.toNat bs

theorem byteBits_injective : Function.Injective byteBits
  | [], [], _ => rfl
  | [], b :: bs, h => by simpa [length_byteBits] using congrArg List.length h
  | a :: as, [], h => by simpa [length_byteBits] using congrArg List.length h
  | a :: as, b :: bs, h => by
    obtain ⟨hbits, hrest⟩ := List.append_inj h (by simp)
    have hab := bits_inj hbits
    rw [Nat.mod_eq_of_lt a.toNat_lt, Nat.mod_eq_of_lt b.toNat_lt] at hab
    rw [UInt8.toNat_inj.1 hab, byteBits_injective hrest]

end Bits

section Packing

/-- Bytes whose bits are those of groups of six, as far as there are enough of them. -/
structure Packs (vs : List Nat) (bs : Bytes) : Prop where
  length : bs.length = 6 * vs.length / 8
  packed : byteBits bs = (vs.flatMap (bits 6)).take (8 * bs.length)

variable {u v w x : Nat} {vs ws : List Nat} {bs cs : Bytes}

theorem Packs.unique (h : Packs vs bs) (h' : Packs vs cs) : bs = cs :=
  byteBits_injective (by rw [h.packed, h'.packed, h.length, h'.length])

/-- Groups that fill their bytes can be put in front. -/
theorem Packs.append (hfill : byteBits cs = ws.flatMap (bits 6)) (h : Packs vs bs) :
    Packs (ws ++ vs) (cs ++ bs) := by
  have hlen := congrArg List.length hfill
  rw [length_byteBits, length_flatMap_bits 6 (fun v => v)] at hlen
  refine ⟨?_, ?_⟩
  · rw [List.length_append, List.length_append, h.length]
    omega
  · rw [byteBits, List.flatMap_append, ← byteBits, ← byteBits, h.packed, hfill,
      List.flatMap_append, List.length_append, Nat.mul_add, ← length_byteBits cs, hfill,
      List.take_length_add_append]

theorem bits_two (u : Nat) (hv : v < 64) :
    bits 6 u ++ bits 6 v = bits 8 (u * 4 + v / 16) ++ bits 4 v :=
  bits_regroup 6 2 4 u hv

theorem bits_three (v : Nat) (hw : w < 64) :
    bits 4 v ++ bits 6 w = bits 8 (v * 16 + w / 4) ++ bits 2 w :=
  bits_regroup 4 4 2 v hw

theorem bits_four (w : Nat) (hx : x < 64) : bits 2 w ++ bits 6 x = bits 8 (w * 64 + x) := by
  have h := bits_regroup 2 6 0 w hx
  rwa [Nat.pow_zero, Nat.div_one, bits, List.append_nil] at h

theorem packs_two (hv : v < 64) : Packs [u, v] [(u * 4 + v / 16).toUInt8] := by
  refine ⟨by simp, ?_⟩
  simp only [byteBits, List.flatMap_cons, List.flatMap_nil, bits_toUInt8, List.append_nil,
    bits_two u hv]
  exact (List.take_left' (by simp)).symm

theorem packs_three (hv : v < 64) (hw : w < 64) :
    Packs [u, v, w] [(u * 4 + v / 16).toUInt8, (v * 16 + w / 4).toUInt8] := by
  refine ⟨by simp, ?_⟩
  simp only [byteBits, List.flatMap_cons, List.flatMap_nil, bits_toUInt8, List.append_nil]
  rw [← List.append_assoc (bits 6 u), bits_two u hv, List.append_assoc, bits_three v hw,
    ← List.append_assoc]
  exact (List.take_left' (by simp)).symm

theorem fill_four (hv : v < 64) (hw : w < 64) (hx : x < 64) :
    byteBits [(u * 4 + v / 16).toUInt8, (v * 16 + w / 4).toUInt8, (w * 64 + x).toUInt8] =
      [u, v, w, x].flatMap (bits 6) := by
  simp only [byteBits, List.flatMap_cons, List.flatMap_nil, bits_toUInt8, List.append_nil]
  rw [← bits_four w hx, ← List.append_assoc (bits 8 (v * 16 + w / 4)), ← bits_three v hw,
    List.append_assoc, ← List.append_assoc, ← bits_two u hv, List.append_assoc]

/-- The bytes of groups, unless one is left alone. -/
theorem decodeOnto_packs : ∀ {vs : List Nat} (done : Bytes), (∀ v ∈ vs, v < 64) →
    vs.length % 4 ≠ 1 → ∃ bs, decodeOnto vs done = some (bs.reverse ++ done) ∧ Packs vs bs
  | [], done, _, _ => ⟨[], rfl, rfl, rfl⟩
  | [_], _, _, hlone => absurd rfl hlone
  | [u, v], done, hlt, _ => ⟨_, rfl, packs_two (hlt v (by simp))⟩
  | [u, v, w], done, hlt, _ => ⟨_, rfl, packs_three (hlt v (by simp)) (hlt w (by simp))⟩
  | u :: v :: w :: x :: vs, done, hlt, hlone => by
    have hrest : vs.length % 4 ≠ 1 := by
      simp only [List.length_cons] at hlone
      omega
    obtain ⟨bs, hbs, hpacks⟩ := decodeOnto_packs (_ :: _ :: _ :: done)
      (fun y hy => hlt y (by simp [hy])) hrest
    have hfill := fill_four (u := u) (hlt v (by simp)) (hlt w (by simp)) (hlt x (by simp))
    refine ⟨_, ?_, hpacks.append hfill⟩
    rw [decodeOnto, hbs]
    simp

theorem decodeOnto_lone : ∀ {vs : List Nat} (done : Bytes), vs.length % 4 = 1 →
    decodeOnto vs done = none
  | [_], _, _ => rfl
  | u :: v :: w :: x :: vs, done, hlone => by
    have hrest : vs.length % 4 = 1 := by
      simp only [List.length_cons] at hlone
      omega
    rw [decodeOnto, decodeOnto_lone _ hrest]

end Packing

section Alphabet

/-- The value of a character: its place in the alphabet. -/
def place (c : UInt8) : Nat :=
  alphabet.idxOf c

variable {c : UInt8} {body : Bytes}

theorem digitValue?_of_mem (hc : c ∈ alphabet) : digitValue? c = some (place c) :=
  List.findIdx?_eq_some_iff_findIdx_eq.2 ⟨List.idxOf_lt_length_iff.2 hc, rfl⟩

theorem digitValue?_of_not_mem (hc : c ∉ alphabet) : digitValue? c = none :=
  List.findIdx?_eq_none_iff.2 fun _ hx => beq_false_of_ne (ne_of_mem_of_not_mem hx hc)

theorem place_lt (hc : c ∈ alphabet) : place c < 64 :=
  List.idxOf_lt_length_iff.2 hc

theorem mapM_of_mem : ∀ {body : Bytes}, (∀ c ∈ body, c ∈ alphabet) →
    body.mapM digitValue? = some (body.map place)
  | [], _ => rfl
  | c :: body, h => by
    obtain ⟨hc, hbody⟩ := List.forall_mem_cons.1 h
    rw [List.mapM_cons, digitValue?_of_mem hc, mapM_of_mem hbody]
    rfl

theorem padding_not_mem : (61 : UInt8) ∉ alphabet := by decide

theorem digit_spec : ∀ v < 64, digit v ∈ alphabet ∧ place (digit v) = v := by decide

theorem digit_mod (n : Nat) : digit (n % 64) = digit n := by
  rw [digit, digit, Nat.mod_mod]

theorem digit_mem (n : Nat) : digit n ∈ alphabet :=
  digit_mod n ▸ (digit_spec _ (Nat.mod_lt n (by decide))).1

theorem bits_place_digit (n : Nat) : bits 6 (place (digit n)) = bits 6 n := by
  rw [← digit_mod, (digit_spec _ (Nat.mod_lt n (by decide))).2]
  exact bits_mod (Nat.le_refl 6)

end Alphabet

section Text

variable {body text bs : Bytes} {pad : Nat}

/-- A body over the alphabet with no character left alone behind its groups of four, and the bytes
whose bits the characters stand for. -/
structure Spells (body bs : Bytes) : Prop where
  mem : ∀ c ∈ body, c ∈ alphabet
  grouped : body.length % 4 ≠ 1
  packs : Packs (body.map place) bs

theorem split_padded (h : ∀ c ∈ body, c ∈ alphabet) (pad : Nat) :
    (body ++ List.replicate pad 61).takeWhile (· != 61) = body ∧
      (body ++ List.replicate pad 61).dropWhile (· != 61) = List.replicate pad 61 := by
  have hbody : ∀ c ∈ body, (c != 61) = true :=
    fun c hc => bne_iff_ne.2 (ne_of_mem_of_not_mem (h c hc) padding_not_mem)
  rw [List.takeWhile_append_of_pos hbody, List.dropWhile_append_of_pos hbody]
  cases pad with
  | zero => simp
  | succ pad => simp [List.replicate_succ]

theorem decode?_padded (h : ∀ c ∈ body, c ∈ alphabet) (pad : Nat) :
    decode? (body ++ List.replicate pad 61) =
      (decodeOnto (body.map place) []).map List.reverse := by
  obtain ⟨htake, hdrop⟩ := split_padded h pad
  have hpad : (List.replicate pad (61 : UInt8)).all (· == 61) = true := by simp
  simp only [decode?, htake, hdrop, mapM_of_mem h, hpad, if_true]

/-- Only a body over the alphabet with padding is read. -/
theorem exists_padded (h : decode? text = some bs) :
    ∃ body pad, text = body ++ List.replicate pad 61 ∧ ∀ c ∈ body, c ∈ alphabet := by
  rw [decode?] at h
  split at h
  · cases h
  · rename_i vs hvs
    split_ifs at h with hpad
    have hall : ∀ c ∈ text.dropWhile (· != 61), c = 61 := by simpa using hpad
    refine ⟨text.takeWhile (· != 61), (text.dropWhile (· != 61)).length, ?_, fun c hc => ?_⟩
    · rw [← List.eq_replicate_of_mem hall, List.takeWhile_append_dropWhile]
    · by_contra hnot
      rw [Bytes.mapM_eq_none hc (digitValue?_of_not_mem hnot)] at hvs
      cases hvs

theorem exists_spells (h : ∀ c ∈ body, c ∈ alphabet) (hgrouped : body.length % 4 ≠ 1) :
    ∃ bs, Spells body bs ∧ ∀ pad, decode? (body ++ List.replicate pad 61) = some bs := by
  have hlt : ∀ v ∈ body.map place, v < 64 :=
    List.forall_mem_map.2 fun c hc => place_lt (h c hc)
  obtain ⟨bs, hbs, hpacks⟩ := decodeOnto_packs [] hlt (by rwa [List.length_map])
  refine ⟨bs, ⟨h, hgrouped, hpacks⟩, fun pad => ?_⟩
  rw [decode?_padded h, hbs, List.append_nil, Option.map_some, List.reverse_reverse]

theorem Spells.decode? (h : Spells body bs) (pad : Nat) :
    decode? (body ++ List.replicate pad 61) = some bs := by
  obtain ⟨bs', h', hdec⟩ := exists_spells h.mem h.grouped
  rw [hdec, h.packs.unique h'.packs]

theorem decode?_eq_some_iff : decode? text = some bs ↔
    ∃ body pad, text = body ++ List.replicate pad 61 ∧ Spells body bs := by
  refine ⟨fun h => ?_, fun ⟨_, pad, htext, h⟩ => htext ▸ h.decode? pad⟩
  obtain ⟨body, pad, rfl, hmem⟩ := exists_padded h
  have hgrouped : body.length % 4 ≠ 1 := fun hlone => by
    rw [decode?_padded hmem, decodeOnto_lone [] (by rwa [List.length_map])] at h
    cases h
  obtain ⟨bs', hspells, hdec⟩ := exists_spells hmem hgrouped
  rw [hdec] at h
  exact ⟨body, pad, rfl, Option.some.inj h ▸ hspells⟩

/-- A body over the alphabet with no character left alone behind its groups of four, and padding. -/
def Grammatical (text : Bytes) : Prop :=
  ∃ body pad, text = body ++ List.replicate pad 61 ∧ (∀ c ∈ body, c ∈ alphabet) ∧
    body.length % 4 ≠ 1

theorem grammatical_iff : Grammatical text ↔ ∃ bs, decode? text = some bs := by
  constructor
  · rintro ⟨body, pad, rfl, hmem, hgrouped⟩
    obtain ⟨bs, -, hdec⟩ := exists_spells hmem hgrouped
    exact ⟨bs, hdec pad⟩
  · rintro ⟨bs, h⟩
    obtain ⟨body, pad, htext, hspells⟩ := decode?_eq_some_iff.1 h
    exact ⟨body, pad, htext, hspells.mem, hspells.grouped⟩

theorem decode?_eq_none_iff : decode? text = none ↔ ¬ Grammatical text := by
  rw [grammatical_iff, Option.eq_none_iff_forall_ne_some, not_exists]

end Text

section Written

variable {a b c : UInt8} {bs : Bytes}

theorem bits_digit_first (a : UInt8) : bits 8 a.toNat = bits 6 (a.toNat / 4) ++ bits 2 a.toNat :=
  bits_add 2 a.toNat 6

theorem bits_digit_second (a b : UInt8) :
    bits 2 a.toNat ++ bits 8 b.toNat =
      bits 6 (a.toNat * 16 + b.toNat / 16) ++ bits 4 b.toNat :=
  bits_regroup 2 4 4 a.toNat b.toNat_lt

theorem bits_digit_third (b c : UInt8) :
    bits 4 b.toNat ++ bits 8 c.toNat =
      bits 6 (b.toNat * 4 + c.toNat / 64) ++ bits 6 c.toNat :=
  bits_regroup 4 2 6 b.toNat c.toNat_lt

/-- The characters that are written for three bytes hold the bits of these. -/
theorem fill_digits (a b c : UInt8) :
    byteBits [a, b, c] =
      ([digit (a.toNat / 4), digit (a.toNat * 16 + b.toNat / 16),
        digit (b.toNat * 4 + c.toNat / 64), digit c.toNat].map place).flatMap (bits 6) := by
  simp only [byteBits, List.map_cons, List.map_nil, List.flatMap_cons, List.flatMap_nil,
    bits_place_digit, List.append_nil]
  rw [bits_digit_first, List.append_assoc, ← List.append_assoc (bits 2 _), bits_digit_second,
    List.append_assoc, bits_digit_third]

theorem packs_one_byte (a : UInt8) :
    Packs ([digit (a.toNat / 4), digit (a.toNat * 16)].map place) [a] := by
  refine ⟨by simp, ?_⟩
  have hlast : bits 6 (a.toNat * 16) = bits 2 a.toNat ++ bits 4 (a.toNat * 16) :=
    bits_fill 2 4 a.toNat
  simp only [byteBits, List.map_cons, List.map_nil, List.flatMap_cons, List.flatMap_nil,
    bits_place_digit, List.append_nil]
  rw [hlast, ← List.append_assoc, ← bits_digit_first]
  exact (List.take_left' (by simp)).symm

theorem packs_two_bytes (a b : UInt8) :
    Packs ([digit (a.toNat / 4), digit (a.toNat * 16 + b.toNat / 16),
      digit (b.toNat * 4)].map place) [a, b] := by
  refine ⟨by simp, ?_⟩
  have hlast : bits 6 (b.toNat * 4) = bits 4 b.toNat ++ bits 2 (b.toNat * 4) :=
    bits_fill 4 2 b.toNat
  simp only [byteBits, List.map_cons, List.map_nil, List.flatMap_cons, List.flatMap_nil,
    bits_place_digit, List.append_nil]
  rw [hlast, ← List.append_assoc (bits 6 (a.toNat * 16 + b.toNat / 16)), ← bits_digit_second,
    List.append_assoc, ← List.append_assoc, ← bits_digit_first]
  exact (List.take_left' (by simp)).symm

theorem textLength_add (n : Nat) : textLength (n + 3) = textLength n + 4 := by
  rw [textLength, textLength, Nat.add_right_comm, Nat.add_div_right _ (by decide), Nat.succ_mul]

/-- What is written for bytes: a body that spells them and is filled up to groups of four. -/
structure Written (body : Bytes) (pad : Nat) (bs : Bytes) : Prop where
  spells : Spells body bs
  pad_le : pad ≤ 2
  length : body.length + pad = textLength bs.length

theorem written_nil : Written [] 0 [] :=
  ⟨⟨by simp, by simp, ⟨rfl, rfl⟩⟩, by decide, rfl⟩

theorem written_one (a : UInt8) :
    Written [digit (a.toNat / 4), digit (a.toNat * 16)] 2 [a] :=
  ⟨⟨by simp [digit_mem], by simp, packs_one_byte a⟩, Nat.le_refl 2, by simp [textLength]⟩

theorem written_two (a b : UInt8) :
    Written [digit (a.toNat / 4), digit (a.toNat * 16 + b.toNat / 16), digit (b.toNat * 4)] 1
      [a, b] :=
  ⟨⟨by simp [digit_mem], by simp, packs_two_bytes a b⟩, by decide, by simp [textLength]⟩

theorem Written.three {body : Bytes} {pad : Nat} (h : Written body pad bs) (a b c : UInt8) :
    Written (digit (a.toNat / 4) :: digit (a.toNat * 16 + b.toNat / 16) ::
      digit (b.toNat * 4 + c.toNat / 64) :: digit c.toNat :: body) pad (a :: b :: c :: bs) := by
  refine ⟨⟨?_, ?_, ?_⟩, h.pad_le, ?_⟩
  · simpa [digit_mem] using h.spells.mem
  · have hgrouped := h.spells.grouped
    simp only [List.length_cons]
    omega
  · exact h.spells.packs.append (fill_digits a b c)
  · have hlen := h.length
    simp only [List.length_cons, textLength_add]
    omega

theorem written_encodeOnto : ∀ bs text : Bytes, ∃ body pad,
    encodeOnto bs text = (body ++ List.replicate pad 61).reverse ++ text ∧ Written body pad bs
  | [], _ => ⟨_, _, rfl, written_nil⟩
  | [a], _ => ⟨_, _, rfl, written_one a⟩
  | [a, b], _ => ⟨_, _, rfl, written_two a b⟩
  | a :: b :: c :: bs, text => by
    obtain ⟨body, pad, henc, h⟩ := written_encodeOnto bs (digit c.toNat ::
      digit (b.toNat * 4 + c.toNat / 64) :: digit (a.toNat * 16 + b.toNat / 16) ::
      digit (a.toNat / 4) :: text)
    refine ⟨_, pad, ?_, h.three a b c⟩
    rw [encodeOnto, henc]
    simp

theorem written_encode (bs : Bytes) :
    ∃ body pad, encode bs = body ++ List.replicate pad 61 ∧ Written body pad bs := by
  obtain ⟨body, pad, henc, h⟩ := written_encodeOnto bs []
  exact ⟨body, pad, by rw [encode, henc, List.append_nil, List.reverse_reverse], h⟩

theorem decode?_encode (bs : Bytes) : decode? (encode bs) = some bs := by
  obtain ⟨body, pad, henc, h⟩ := written_encode bs
  rw [henc, h.spells.decode? pad]

theorem length_encode (bs : Bytes) : (encode bs).length = textLength bs.length := by
  obtain ⟨body, pad, henc, h⟩ := written_encode bs
  rw [henc, List.length_append, List.length_replicate, h.length]

/-- Padding that fills no group is taken, and bits that fill no byte are ignored. -/
example : decode? (ascii "TWB=====") = some (ascii "M`") := by decide

end Written

end OfflineTx.Base64
