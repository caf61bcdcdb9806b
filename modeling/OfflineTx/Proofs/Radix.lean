import Mathlib.Data.Nat.Digits.Lemmas
import OfflineTx.Text.Radix

/-!
# Digits of a number

Digits without leading zeros are those of the number that they stand for (`Numeral.eq_digits`), and
a number has digits in `k` places exactly if it is below the power of the base (`digits?_eq`). The
same digits come about place by place, when each digit of another base is taken in by multiplying
all places and carrying from each to the next (`convert?_eq`).
-/

namespace OfflineTx.Radix

variable {b : Nat} {ds : List Nat}

/-- Digits of a base, highest first, of which the first is not zero. -/
structure Numeral (b : Nat) (ds : List Nat) : Prop where
  lt : ∀ d ∈ ds, d < b
  head : ds.head? ≠ some 0

section Value

theorem foldl_eq : ∀ (ds : List Nat) (n : Nat),
    ds.foldl (fun n d => b * n + d) n = b ^ ds.length * n + Nat.ofDigits b ds.reverse
  | [], n => by simp
  | d :: ds, n => by
    rw [List.foldl_cons, foldl_eq ds, Nat.ofDigits_reverse_cons, List.length_cons, Nat.pow_succ]
    ring

theorem value_eq_ofDigits (ds : List Nat) : value b ds = Nat.ofDigits b ds.reverse := by
  rw [value, foldl_eq, Nat.mul_zero, Nat.zero_add]

theorem value_lt (hb : 1 < b) (h : ∀ d ∈ ds, d < b) : value b ds < b ^ ds.length := by
  rw [value_eq_ofDigits, ← List.length_reverse]
  exact Nat.ofDigits_lt_base_pow_length hb fun d hd => h d (List.mem_reverse.1 hd)

theorem value_digits (b n : Nat) : value b (Nat.digits b n).reverse = n := by
  rw [value_eq_ofDigits, List.reverse_reverse, Nat.ofDigits_digits]

theorem numeral_digits (hb : 1 < b) (n : Nat) : Numeral b (Nat.digits b n).reverse where
  lt d hd := Nat.digits_lt_base hb (List.mem_reverse.1 hd)
  head := by
    rw [List.head?_reverse]
    by_cases hn : n = 0
    · simp [hn]
    · have hne : Nat.digits b n ≠ [] := Nat.digits_ne_nil_iff_ne_zero.2 hn
      rw [List.getLast?_eq_some_getLast hne]
      exact fun h => Nat.getLast_digit_ne_zero b hn (Option.some.inj h)

theorem Numeral.eq_digits (h : Numeral b ds) (hb : 1 < b) :
    ds = (Nat.digits b (value b ds)).reverse := by
  rw [value_eq_ofDigits, Nat.digits_ofDigits b hb, List.reverse_reverse]
  · exact fun d hd => h.lt d (List.mem_reverse.1 hd)
  · intro hne hlast
    have hne' : ds ≠ [] := fun hnil => hne (by rw [hnil, List.reverse_nil])
    rw [List.getLast_reverse] at hlast
    exact h.head (by rw [List.head?_eq_some_head hne', hlast])

theorem value_dropWhile : ∀ ds : List Nat, value b (ds.dropWhile (· == 0)) = value b ds
  | [] => rfl
  | d :: ds => by
    rw [List.dropWhile_cons]
    split
    · rename_i hd
      rw [value_dropWhile ds, beq_iff_eq.1 hd]
      rfl
    · rfl

theorem numeral_dropWhile (h : ∀ d ∈ ds, d < b) : Numeral b (ds.dropWhile (· == 0)) where
  lt d hd := h d (List.dropWhile_subset _ hd)
  head := by
    have h := List.head?_dropWhile_not (· == 0) ds
    intro h0
    rw [h0] at h
    cases h

end Value

section Split

theorem splitOnto_fst : ∀ (k n : Nat) (ds : List Nat), (splitOnto b k n ds).1 = n / b ^ k
  | 0, _, _ => by simp [splitOnto]
  | k + 1, n, ds => by
    rw [splitOnto, splitOnto_fst k, Nat.div_div_eq_div_mul, Nat.pow_succ, Nat.mul_comm b]

theorem splitOnto_lt (hb : 0 < b) : ∀ (k n : Nat) {ds : List Nat}, (∀ d ∈ ds, d < b) →
    ∀ d ∈ (splitOnto b k n ds).2, d < b
  | 0, _, _, h => h
  | k + 1, n, _, h => splitOnto_lt hb k (n / b) (List.forall_mem_cons.2 ⟨Nat.mod_lt n hb, h⟩)

theorem foldl_splitOnto : ∀ (k n : Nat) (ds : List Nat),
    (splitOnto b k n ds).2.foldl (fun n d => b * n + d) (splitOnto b k n ds).1 =
      ds.foldl (fun n d => b * n + d) n
  | 0, _, _ => rfl
  | k + 1, n, ds => by
    rw [splitOnto, foldl_splitOnto k, List.foldl_cons, Nat.div_add_mod]

theorem value_split {k n : Nat} (h : n < b ^ k) : value b (split b k n).2 = n := by
  have hz : (split b k n).1 = 0 := by rw [split, splitOnto_fst, Nat.div_eq_of_lt h]
  have hf := foldl_splitOnto (b := b) k n []
  rw [← split, hz] at hf
  exact hf

theorem digits?_eq (hb : 1 < b) (k n : Nat) :
    digits? b k n = if n < b ^ k then some (Nat.digits b n).reverse else none := by
  have hfst : (split b k n).1 = n / b ^ k := splitOnto_fst k n []
  have hlt : ∀ d ∈ (split b k n).2, d < b := splitOnto_lt (by omega) k n (by simp)
  have hpos : 0 < b ^ k := Nat.pow_pos (by omega)
  unfold digits?
  split
  · rename_i ds hs
    rw [hs] at hfst hlt
    have hn : n < b ^ k := (Nat.div_eq_zero_iff_lt hpos).1 hfst.symm
    have hvalue := value_split hn
    rw [hs] at hvalue
    rw [if_pos hn, (numeral_dropWhile hlt).eq_digits hb, value_dropWhile, hvalue]
  · rename_i hs
    rw [if_neg]
    intro hn
    rw [Nat.div_eq_of_lt hn] at hfst
    exact hs _ (Prod.ext hfst rfl)

end Split

section Places

/-- Digits in a row of places, lowest first, of which the first `used` are in use. -/
structure Places where
  digits : List Nat
  used : Nat

/-- Multiplies the digits by `m` and carries from each place to the next, for as long as something
is carried or places are in use. Gives what is carried out of the highest place, the digits, and the
number of places in use. -/
def carryThrough (b m : Nat) : List Nat → Nat → Nat → Nat × List Nat × Nat
  | [], c, _ => (c, [], 0)
  | d :: ds, c, used =>
    if c = 0 ∧ used = 0 then (0, d :: ds, 0)
    else
      let (out, rest, used) := carryThrough b m ds ((c + m * d) / b) (used - 1)
      (out, (c + m * d) % b :: rest, used + 1)

/-- Takes in one digit of base `m`, unless something is carried out of the highest place. -/
def takeIn? (b m : Nat) (p : Places) (d : Nat) : Option Places :=
  match carryThrough b m p.digits d p.used with
  | (0, digits, used) => some { digits, used }
  | _ => none

/-- Takes in digits of base `m`, highest first, into `k` empty places, and gives the digits in the
places in use, highest first and without leading zeros. -/
def convert? (b m k : Nat) (ds : List Nat) : Option (List Nat) :=
  (ds.foldlM (takeIn? b m) { digits := .replicate k 0, used := 0 }).map fun p =>
    (p.digits.take p.used).reverse.dropWhile (· == 0)

/-- The places hold the number, and those not in use hold zero. -/
structure Places.Holds (b k : Nat) (p : Places) (n : Nat) : Prop where
  length : p.digits.length = k
  lt : ∀ d ∈ p.digits, d < b
  unused : ∀ d ∈ p.digits.drop p.used, d = 0
  value : Nat.ofDigits b p.digits = n

variable {m k n : Nat} {p : Places}

theorem ofDigits_eq_zero : ∀ {ds : List Nat}, (∀ d ∈ ds, d = 0) → Nat.ofDigits b ds = 0
  | [], _ => rfl
  | d :: ds, h => by
    obtain ⟨hd, hds⟩ := List.forall_mem_cons.1 h
    rw [Nat.ofDigits_cons, hd, ofDigits_eq_zero hds, Nat.mul_zero]

/-- What is carried out counts as a digit of the place above the highest. -/
theorem carryThrough_holds (hb : 0 < b) : ∀ {ds : List Nat} {c used : Nat},
    (∀ d ∈ ds, d < b) → (∀ d ∈ ds.drop used, d = 0) →
      ∃ out rest used', carryThrough b m ds c used = (out, rest, used') ∧
        Places.Holds b ds.length { digits := rest, used := used' } (Nat.ofDigits b rest) ∧
        Nat.ofDigits b rest + b ^ ds.length * out = c + m * Nat.ofDigits b ds
  | [], c, _, _, _ => ⟨c, [], 0, rfl, ⟨rfl, by simp, by simp, rfl⟩, by simp⟩
  | d :: ds, c, used, hlt, hunused => by
    by_cases hstop : c = 0 ∧ used = 0
    -- Nothing is carried on, and the places that are left hold zero.
    · obtain ⟨rfl, rfl⟩ := hstop
      refine ⟨0, d :: ds, 0, rfl, ⟨rfl, hlt, hunused, rfl⟩, ?_⟩
      have hzero : Nat.ofDigits b (d :: ds) = 0 := ofDigits_eq_zero hunused
      rw [hzero, Nat.mul_zero, Nat.mul_zero]
    · have hunused' : ∀ e ∈ ds.drop (used - 1), e = 0 := by
        intro e he
        cases used with
        | zero => exact hunused e (List.mem_cons_of_mem d he)
        | succ used => exact hunused e he
      obtain ⟨out, rest, used', hrest, hholds, hvalue⟩ :=
        carryThrough_holds hb (c := (c + m * d) / b) (List.forall_mem_cons.1 hlt).2 hunused'
      refine ⟨out, (c + m * d) % b :: rest, used' + 1, ?_, ⟨?_, ?_, hholds.unused, rfl⟩, ?_⟩
      · rw [carryThrough, if_neg hstop, hrest]
      · exact congrArg Nat.succ hholds.length
      · exact List.forall_mem_cons.2 ⟨Nat.mod_lt _ hb, hholds.lt⟩
      · rw [Nat.ofDigits_cons, Nat.ofDigits_cons, List.length_cons, Nat.pow_succ]
        calc (c + m * d) % b + b * Nat.ofDigits b rest + b ^ ds.length * b * out
            = (c + m * d) % b + b * (Nat.ofDigits b rest + b ^ ds.length * out) := by ring
          _ = b * ((c + m * d) / b) + (c + m * d) % b + m * (b * Nat.ofDigits b ds) := by
            rw [hvalue]
            ring
          _ = c + m * (d + b * Nat.ofDigits b ds) := by
            rw [Nat.div_add_mod]
            ring

theorem takeIn?_holds (hb : 1 < b) (h : p.Holds b k n) (d : Nat) :
    if m * n + d < b ^ k then ∃ p', takeIn? b m p d = some p' ∧ p'.Holds b k (m * n + d)
    else takeIn? b m p d = none := by
  obtain ⟨out, rest, used, hcarry, hrest, hvalue⟩ :=
    carryThrough_holds (m := m) (c := d) (by omega) h.lt h.unused
  rw [h.length] at hrest hvalue
  rw [h.value, Nat.add_comm d] at hvalue
  have hlt := Nat.ofDigits_lt_base_pow_length hb hrest.lt
  rw [hrest.length] at hlt
  unfold takeIn?
  rw [hcarry]
  cases out with
  | zero =>
    rw [Nat.mul_zero, Nat.add_zero] at hvalue
    rw [if_pos (hvalue ▸ hlt)]
    exact ⟨_, rfl, hrest.length, hrest.lt, hrest.unused, hvalue⟩
  | succ out =>
    rw [Nat.mul_succ] at hvalue
    rw [if_neg (by omega)]
    rfl

theorem le_foldl (hm : 0 < m) (ds : List Nat) (n : Nat) :
    n ≤ ds.foldl (fun n d => m * n + d) n := by
  rw [foldl_eq]
  exact Nat.le_add_right_of_le (Nat.le_mul_of_pos_left n (Nat.pow_pos hm))

theorem foldlM_takeIn? (hb : 1 < b) (hm : 0 < m) : ∀ (ds : List Nat) {n : Nat} {p : Places},
    p.Holds b k n →
      if ds.foldl (fun n d => m * n + d) n < b ^ k then
        ∃ p', ds.foldlM (takeIn? b m) p = some p' ∧
          p'.Holds b k (ds.foldl (fun n d => m * n + d) n)
      else ds.foldlM (takeIn? b m) p = none
  | [], n, p, h => by
    have hlt := Nat.ofDigits_lt_base_pow_length hb h.lt
    rw [h.value, h.length] at hlt
    rw [List.foldl_nil, if_pos hlt]
    exact ⟨p, rfl, h⟩
  | d :: ds, n, p, h => by
    have hstep := takeIn?_holds (m := m) hb h d
    rw [List.foldl_cons, List.foldlM_cons]
    by_cases hlt : m * n + d < b ^ k
    · rw [if_pos hlt] at hstep
      obtain ⟨p', hp', hholds⟩ := hstep
      rw [hp']
      exact foldlM_takeIn? hb hm ds hholds
    · rw [if_neg hlt] at hstep
      have hle := le_foldl hm ds (m * n + d)
      rw [hstep, if_neg (by omega)]
      rfl

theorem holds_blank (hb : 0 < b) (k : Nat) :
    Places.Holds b k { digits := .replicate k 0, used := 0 } 0 where
  length := List.length_replicate
  lt d hd := by rwa [List.eq_of_mem_replicate hd]
  unused d hd := List.eq_of_mem_replicate hd
  value := ofDigits_eq_zero fun _ hd => List.eq_of_mem_replicate hd

theorem Places.Holds.numeral (h : p.Holds b k n) (hb : 1 < b) :
    (p.digits.take p.used).reverse.dropWhile (· == 0) = (Nat.digits b n).reverse := by
  have hlt : ∀ d ∈ (p.digits.take p.used).reverse, d < b :=
    fun d hd => h.lt d (List.mem_of_mem_take (List.mem_reverse.1 hd))
  have hvalue := h.value
  rw [← List.take_append_drop p.used p.digits, Nat.ofDigits_append, ofDigits_eq_zero h.unused,
    Nat.mul_zero, Nat.add_zero] at hvalue
  rw [(numeral_dropWhile hlt).eq_digits hb, value_dropWhile, value_eq_ofDigits,
    List.reverse_reverse, hvalue]

/-- Place by place the same digits come about, and something is carried out of the highest place
just if the number needs more places. -/
theorem convert?_eq (hb : 1 < b) (hm : 0 < m) (k : Nat) (ds : List Nat) :
    convert? b m k ds = digits? b k (value m ds) := by
  have hall := foldlM_takeIn? hb hm ds (holds_blank (by omega) k)
  rw [digits?_eq hb, convert?, value]
  split
  · rename_i hlt
    rw [if_pos hlt] at hall
    obtain ⟨p, hp, hholds⟩ := hall
    rw [hp, Option.map_some, hholds.numeral hb]
  · rename_i hlt
    rw [if_neg hlt] at hall
    rw [hall, Option.map_none]

end Places

end OfflineTx.Radix
