import Mathlib.Algebra.GroupWithZero.Nat
import OfflineTx.Wire.Reader
import OfflineTx.Wire.Writer

/-!
# What a read passes

A read that succeeds passes the wire form of the value it gives, and a read succeeds wherever a wire
form stands, whatever follows it. Both are one equivalence (`Reads`), which the reads of single
fields satisfy and the reads of lists inherit from those of their elements (`elements_reads`).
-/

namespace OfflineTx

theorem bind_eq_ok_iff {ε α β : Type} {x : Except ε α} {f : α → Except ε β} {b : β} :
    x >>= f = .ok b ↔ ∃ a, x = .ok a ∧ f a = .ok b := by
  cases x with
  | error e => simp [bind, Except.bind]
  | ok a => simp [bind, Except.bind]

theorem map_eq_ok_iff {ε α β : Type} {x : Except ε α} {f : α → β} {b : β} :
    x.map f = .ok b ↔ ∃ a, x = .ok a ∧ f a = b := by
  cases x <;> simp [Except.map]

theorem map_eq_error_iff {ε α β : Type} {x : Except ε α} {f : α → β} {e : ε} :
    x.map f = .error e ↔ x = .error e := by
  cases x <;> simp [Except.map]

namespace Wire.Reader

/-- From `r` to `r'` the reader passes exactly the bytes `bs`. -/
structure Passes (r : Reader) (bs : Bytes) (r' : Reader) : Prop where
  rest_eq : r.rest = bs ++ r'.rest
  offset_eq : r'.offset = r.offset + bs.length

/-- `read` gives exactly the fit values, each from its wire form and whatever follows. -/
def Reads {α : Type} (read : Reader → Except Fault (α × Reader)) (wire : α → Bytes)
    (fit : α → Prop) : Prop :=
  ∀ r a r', read r = .ok (a, r') ↔ fit a ∧ r.Passes (wire a) r'

variable {r r' : Reader} {as bs : Bytes} {what : Bytes}

theorem passes_nil : r.Passes [] r' ↔ r' = r := by
  constructor
  · rintro ⟨h, h'⟩
    obtain ⟨offset, rest⟩ := r
    obtain ⟨offset', rest'⟩ := r'
    simp only [List.nil_append, List.length_nil, Nat.add_zero] at h h'
    rw [h, h']
  · rintro rfl
    exact ⟨rfl, rfl⟩

theorem passes_append : r.Passes (as ++ bs) r' ↔ ∃ m, r.Passes as m ∧ m.Passes bs r' := by
  constructor
  · rintro ⟨h, h'⟩
    refine ⟨⟨r.offset + as.length, bs ++ r'.rest⟩, ⟨?_, rfl⟩, ⟨rfl, ?_⟩⟩
    · rw [h, List.append_assoc]
    · rw [h', List.length_append, Nat.add_assoc]
  · rintro ⟨m, ⟨h₁, h₁'⟩, ⟨h₂, h₂'⟩⟩
    refine ⟨?_, ?_⟩
    · rw [h₁, h₂, List.append_assoc]
    · rw [h₂', h₁', List.length_append, Nat.add_assoc]

theorem passes_cons {b : UInt8} :
    r.Passes (b :: bs) r' ↔ ∃ m, r.Passes [b] m ∧ m.Passes bs r' := by
  rw [← List.singleton_append, passes_append]

/-- Standing `n` bytes further on, the reader has passed the first `n` bytes. -/
theorem passes_advance {n : Nat} (h : n ≤ r.rest.length) :
    r.Passes (r.rest.take n) (r.advance n) where
  rest_eq := (List.take_append_drop n r.rest).symm
  offset_eq := by rw [List.length_take, Nat.min_eq_left h]; rfl

theorem Passes.advance_eq (h : r.Passes bs r') : r.advance bs.length = r' := by
  obtain ⟨offset', rest'⟩ := r'
  obtain ⟨h₁, h₂⟩ := h
  simp only at h₁ h₂
  rw [advance, h₁, h₂, List.drop_left]

theorem Passes.length_le (h : r.Passes bs r') : bs.length ≤ r.rest.length := by
  rw [h.rest_eq, List.length_append]
  omega

theorem Passes.take_eq (h : r.Passes bs r') : r.rest.take bs.length = bs := by
  rw [h.rest_eq, List.take_left]

theorem need_eq_ok_iff {n : Nat} : r.need n what = .ok () ↔ n ≤ r.rest.length := by
  unfold need
  split
  · rename_i h
    simpa using Bytes.fits_iff.1 h
  · rename_i h
    simpa using fun h' => h (Bytes.fits_iff.2 h')

theorem peek_eq_ok_iff {b : UInt8} : r.peek what = .ok b ↔ ∃ bs, r.rest = b :: bs := by
  unfold peek
  split <;> simp_all

theorem byte_eq_ok_iff {b : UInt8} : r.byte what = .ok (b, r') ↔ r.Passes [b] r' := by
  unfold byte
  constructor
  · intro h
    split at h
    · cases h
    · rename_i c bs hr
      cases h
      simpa [hr] using passes_advance (r := r) (n := 1) (by simp [hr])
  · intro h
    rw [h.rest_eq]
    simpa using h.advance_eq

theorem bytes_eq_ok_iff {n : Nat} :
    r.bytes n what = .ok (bs, r') ↔ bs.length = n ∧ r.Passes bs r' := by
  unfold bytes
  constructor
  · intro h
    split at h
    · rename_i hf
      cases h
      exact ⟨Bytes.length_take_of_fits hf, passes_advance (Bytes.fits_iff.1 hf)⟩
    · cases h
  · rintro ⟨rfl, h⟩
    rw [if_pos (Bytes.fits_iff.2 h.length_le), h.take_eq, h.advance_eq]

theorem fixed_eq_ok_iff {n : Nat} {a : FixedBytes n} :
    r.fixed n what = .ok (a, r') ↔ r.Passes a.bytes r' := by
  unfold fixed
  constructor
  · intro h
    split at h
    · rename_i hf
      cases h
      exact passes_advance (Bytes.fits_iff.1 hf)
    · cases h
  · intro h
    have hn : n ≤ r.rest.length := a.length_eq ▸ h.length_le
    have ht : r.rest.take n = a.bytes := by
      have := h.take_eq
      rwa [a.length_bytes] at this
    have hr : r.advance n = r' := by
      have := h.advance_eq
      rwa [a.length_bytes] at this
    simp only [dif_pos (Bytes.fits_iff.2 hn), ht, hr]

theorem length_eq_ok_iff {n : UInt16} :
    r.length what = .ok (n, r') ↔ r.Passes (CompactLength.encode n) r' := by
  unfold length
  constructor
  · intro h
    split at h
    · rename_i v used hd
      cases h
      obtain ⟨hu, hb⟩ := CompactLength.eq_encode_of_decode hd
      refine ⟨hb, ?_⟩
      rw [CompactLength.length_encode, ← hu]
      rfl
    · cases h
    · cases h
  · intro h
    rw [h.rest_eq, CompactLength.decode_encode_append, ← CompactLength.length_encode]
    simp only [h.advance_eq]

theorem toNat_eq_of_length {α : Type} {xs : List α} (h : xs.length ≤ 0xffff) :
    (UInt16.ofNat xs.length).toNat = xs.length := by
  rw [UInt16.toNat_ofNat']
  omega

theorem counted_eq_ok_iff :
    r.counted what = .ok (bs, r') ↔ bs.length ≤ 0xffff ∧ r.Passes (Wire.counted bs) r' := by
  unfold counted Wire.counted
  constructor
  · intro h
    split at h
    · cases h
    · rename_i n m hn
      obtain ⟨hl, hp⟩ := bytes_eq_ok_iff.1 h
      have hlt := n.toNat_lt
      refine ⟨by omega, passes_append.2 ⟨m, ?_, hp⟩⟩
      rw [hl, UInt16.ofNat_toNat]
      exact length_eq_ok_iff.1 hn
  · rintro ⟨hl, h⟩
    obtain ⟨m, hm, hp⟩ := passes_append.1 h
    rw [length_eq_ok_iff.2 hm]
    exact bytes_eq_ok_iff.2 ⟨(toNat_eq_of_length hl).symm, hp⟩

section Lists

variable {α : Type} {read : Reader → Except Fault (α × Reader)} {wire : α → Bytes}
  {fit : α → Prop}

theorem repeatOnto_eq_ok_iff (h : Reads read wire fit) :
    ∀ (n : Nat) (done : List α) (r : Reader) (xs : List α) (r' : Reader),
      repeatOnto read n done r = .ok (xs, r') ↔ ∃ ys, xs = done.reverse ++ ys ∧ ys.length = n
        ∧ (∀ y ∈ ys, fit y) ∧ r.Passes (ys.flatMap wire) r'
  | 0, done, r, xs, r' => by
    simp only [repeatOnto, Except.ok.injEq, Prod.mk.injEq, List.length_eq_zero_iff]
    constructor
    · rintro ⟨rfl, rfl⟩
      exact ⟨[], by simp, rfl, by simp, passes_nil.2 rfl⟩
    · rintro ⟨_, rfl, rfl, -, hp⟩
      exact ⟨by simp, (passes_nil.1 hp).symm⟩
  | n + 1, done, r, xs, r' => by
    simp only [repeatOnto]
    constructor
    · intro hr
      split at hr
      · cases hr
      · rename_i a m ha
        obtain ⟨hfit, hm⟩ := (h r a m).1 ha
        obtain ⟨ys, rfl, hlen, hys, hp⟩ := (repeatOnto_eq_ok_iff h n _ m xs r').1 hr
        refine ⟨a :: ys, by simp, by simp [hlen], ?_, ?_⟩
        · simpa using ⟨hfit, hys⟩
        · rw [List.flatMap_cons]
          exact passes_append.2 ⟨m, hm, hp⟩
    · rintro ⟨ys, rfl, hlen, hys, hp⟩
      obtain ⟨a, ys, rfl⟩ := List.exists_cons_of_length_eq_add_one hlen
      rw [List.flatMap_cons] at hp
      obtain ⟨m, hm, hp⟩ := passes_append.1 hp
      rw [(h r a m).2 ⟨hys a List.mem_cons_self, hm⟩]
      refine (repeatOnto_eq_ok_iff h n _ m _ r').2 ⟨ys, by simp, by simpa using hlen, ?_, hp⟩
      exact fun y hy => hys y (List.mem_cons_of_mem _ hy)

theorem mul_length_le_length_flatMap {size : Nat} :
    ∀ {xs : List α}, (∀ x ∈ xs, size ≤ (wire x).length) →
      xs.length * size ≤ (xs.flatMap wire).length
  | [], _ => by simp
  | x :: xs, h => by
    have ih := mul_length_le_length_flatMap fun y hy => h y (List.mem_cons_of_mem _ hy)
    have hx := h x List.mem_cons_self
    rw [List.flatMap_cons, List.length_append, List.length_cons, Nat.succ_mul]
    omega

/-- The room asked for is the number of elements times their least size, without wrapping. -/
theorem needElements_eq_ok_iff {n : UInt16} {size : UInt64} (hs : size.toNat ≤ 2 ^ 48) :
    r.needElements n.toUInt64 size what = .ok () ↔ n.toNat * size.toNat ≤ r.rest.length := by
  have hn := n.toNat_lt
  have hlt : n.toNat * size.toNat < 2 ^ 64 := by
    calc n.toNat * size.toNat ≤ n.toNat * 2 ^ 48 := Nat.mul_le_mul_left _ hs
      _ < 2 ^ 16 * 2 ^ 48 := Nat.mul_lt_mul_of_pos_right hn (by decide)
      _ = 2 ^ 64 := by decide
  rw [needElements, need_eq_ok_iff, UInt64.toNat_mul, UInt16.toNat_toUInt64, Nat.mod_eq_of_lt hlt]

/-- A list is read exactly from the form of its length and the forms of its elements, if no
element is smaller than the least size. -/
theorem elements_reads {size : UInt64} (h : Reads read wire fit)
    (hw : ∀ a, fit a → size.toNat ≤ (wire a).length) (hs : size.toNat ≤ 2 ^ 48) :
    Reads (elements what size read)
      (fun xs => CompactLength.encode (UInt16.ofNat xs.length) ++ xs.flatMap wire)
      (fun xs => xs.length ≤ 0xffff ∧ ∀ x ∈ xs, fit x) := by
  intro r xs r'
  unfold elements
  constructor
  · intro hr
    split at hr
    · cases hr
    · rename_i n m hn
      split at hr
      · cases hr
      · obtain ⟨ys, rfl, hlen, hys, hp⟩ := (repeatOnto_eq_ok_iff h _ _ _ _ _).1 hr
        have hlt := n.toNat_lt
        refine ⟨⟨by omega, hys⟩, passes_append.2 ⟨m, ?_, hp⟩⟩
        rw [hlen, UInt16.ofNat_toNat]
        exact length_eq_ok_iff.1 hn
  · rintro ⟨⟨hlen, hxs⟩, hp⟩
    obtain ⟨m, hm, hp⟩ := passes_append.1 hp
    have hroom : m.needElements (UInt16.ofNat xs.length).toUInt64 size what = .ok () := by
      rw [needElements_eq_ok_iff hs, toNat_eq_of_length hlen]
      exact Nat.le_trans (mul_length_le_length_flatMap fun x hx => hw x (hxs x hx)) hp.length_le
    simp only [length_eq_ok_iff.2 hm, hroom]
    exact (repeatOnto_eq_ok_iff h _ _ _ _ _).2
      ⟨xs, rfl, (toNat_eq_of_length hlen).symm, hxs, hp⟩

end Lists

end Wire.Reader

end OfflineTx
