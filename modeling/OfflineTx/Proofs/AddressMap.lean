import OfflineTx.AddressMap

/-!
# What a map answers

In a linked map the head of a bucket holds the newest place of the bucket, and the link behind a
node the newest place of its bucket that is older (`Linked`). So links only lead to older places,
and following them finds the newest node with an address, wherever its bucket has others
(`lookup?_eq`). An address then has the value it was last inserted with (`lookup?_insert`).
-/

namespace OfflineTx.AddressMap

/-- The greatest place below a bound at which `p` holds, or zero, which is no place, if there is
none. -/
def newest (p : Nat → Bool) : Nat → Nat
  | 0 => 0
  | n + 1 => if n ≠ 0 ∧ p n then n else newest p n

section Newest

variable {p q : Nat → Bool} {n : Nat}

theorem newest_spec : ∀ {n : Nat}, newest p n ≠ 0 → newest p n < n ∧ p (newest p n) = true
  | 0, h => absurd rfl h
  | n + 1, h => by
    unfold newest at h ⊢
    split at h
    · rename_i hn
      rw [if_pos hn]
      exact ⟨Nat.lt_succ_self n, hn.2⟩
    · rename_i hn
      rw [if_neg hn]
      obtain ⟨hlt, hp⟩ := newest_spec h
      exact ⟨Nat.lt_succ_of_lt hlt, hp⟩

theorem newest_succ (p : Nat → Bool) (n : Nat) :
    newest p (n + 2) = if p (n + 1) then n + 1 else newest p (n + 1) := by
  rw [newest]
  simp

/-- Where `p` fails from some place on, only the places before it count. -/
theorem newest_eq_of_fails {i : Nat} : ∀ {n : Nat}, i ≤ n →
    (∀ j, i ≤ j → j < n → j ≠ 0 → p j = false) → newest p n = newest p i
  | 0, hi, _ => by rw [Nat.le_zero.1 hi]
  | n + 1, hi, h => by
    rcases Nat.lt_or_ge n i with hlt | hge
    · rw [show i = n + 1 by omega]
    · have hn : ¬(n ≠ 0 ∧ p n = true) := by
        rintro ⟨h0, hp⟩
        rw [h n hge (Nat.lt_succ_self n) h0] at hp
        cases hp
      rw [newest, if_neg hn]
      exact newest_eq_of_fails hge fun j hij hj => h j hij (Nat.lt_succ_of_lt hj)

theorem fails_above_newest : ∀ {n j : Nat}, newest p n < j → j < n → p j = false
  | 0, _, _, hj => absurd hj (Nat.not_lt_zero _)
  | n + 1, j, h, hj => by
    unfold newest at h
    split at h
    · omega
    · rename_i hn
      rcases Nat.lt_succ_iff_lt_or_eq.1 hj with hlt | rfl
      · exact fails_above_newest h hlt
      · simp only [ne_eq, not_and, Bool.not_eq_true] at hn
        exact hn (by omega)

theorem newest_congr : ∀ {n : Nat}, (∀ j < n, j ≠ 0 → p j = q j) → newest p n = newest q n
  | 0, _ => rfl
  | n + 1, h => by
    have ih := newest_congr fun j hj => h j (Nat.lt_succ_of_lt hj)
    unfold newest
    rw [ih]
    by_cases hn : n = 0
    · simp [hn]
    · rw [h n (Nat.lt_succ_self n) hn]

end Newest

variable {width : Nat}

/-- Whether the node at a place is in a bucket. -/
def inBucket (m : AddressMap width) (b i : Nat) : Bool :=
  bucket width (m.node i).address == b

def holds (m : AddressMap width) (a : Address) (i : Nat) : Bool :=
  (m.node i).address == a

/-- The head of a bucket holds its newest place, and the link behind a node the newest place of
its bucket that is older. -/
structure Linked (m : AddressMap width) : Prop where
  width_pos : 0 < width
  heads_size : m.heads.size = width
  nodes_pos : 0 < m.nodes.size
  head_eq : ∀ b < width, m.place (.head b) = newest (m.inBucket b) m.nodes.size
  next_eq : ∀ i < m.nodes.size, i ≠ 0 →
    (m.node i).next = newest (m.inBucket (bucket width (m.node i).address)) i

theorem bucket_lt (h : 0 < width) (a : Address) : bucket width a < width :=
  Nat.mod_lt _ h

theorem inBucket_of_holds {m : AddressMap width} {a : Address} {i : Nat}
    (h : m.holds a i = true) : m.inBucket (bucket width a) i = true := by
  unfold holds at h
  unfold inBucket
  rw [beq_iff_eq] at h ⊢
  rw [h]

/-- From a slot that holds the newest place below `n` of its bucket, a walk finds the newest place
below `n` with the address. Each link leads below `n`, so as many steps are enough. -/
theorem walk_eq {m : AddressMap width} (hm : m.Linked) (a : Address) :
    ∀ {fuel n : Nat} {s : Slot}, n ≤ fuel → n ≤ m.nodes.size →
      m.place s = newest (m.inBucket (bucket width a)) n →
        (m.walk a fuel s).map m.place =
          if newest (m.holds a) n = 0 then none else some (newest (m.holds a) n)
  | 0, n, s, hf, _, _ => by
    rw [Nat.le_zero.1 hf]
    rfl
  | fuel + 1, n, s, hf, hn, hs => by
    have hfails : ∀ j, newest (m.inBucket (bucket width a)) n < j → j < n →
        m.holds a j = false := by
      intro j hlt hj
      rcases hh : m.holds a j with _ | _
      · rfl
      · rw [← inBucket_of_holds hh, fails_above_newest hlt hj]
    simp only [walk, hs]
    split
    -- No place of the bucket is left, so none has the address.
    · rename_i h0
      rw [h0] at hfails
      have hnone : newest (m.holds a) n = newest (m.holds a) 0 :=
        newest_eq_of_fails (Nat.zero_le n) fun j _ hj h => hfails j (Nat.pos_of_ne_zero h) hj
      rw [hnone]
      rfl
    · rename_i h0
      obtain ⟨hlt, hin⟩ := newest_spec h0
      generalize newest (m.inBucket (bucket width a)) n = i at *
      split
      · rename_i ha
        have hi : newest (m.holds a) n = i := by
          rw [newest_eq_of_fails (i := i + 1) hlt fun j hj hjn _ => hfails j hj hjn, newest,
            if_pos ⟨h0, by simp [holds, ha]⟩]
        rw [hi, if_neg h0, Option.map_some, hs]
      -- The newest place of the bucket has another address, and behind it come the older ones.
      · rename_i ha
        have hi : newest (m.holds a) n = newest (m.holds a) i := by
          refine newest_eq_of_fails (Nat.le_of_lt hlt) fun j hj hjn _ => ?_
          rcases Nat.eq_or_lt_of_le hj with rfl | hlt'
          · simpa [holds] using ha
          · exact hfails j hlt' hjn
        have hb : bucket width (m.node i).address = bucket width a := by
          simpa [inBucket] using hin
        rw [hi]
        refine walk_eq hm a (by omega) (by omega) ?_
        rw [place, hm.next_eq i (by omega) h0, hb]

theorem place_find? {m : AddressMap width} (hm : m.Linked) (a : Address) :
    (m.find? a).map m.place = if newest (m.holds a) m.nodes.size = 0 then none
      else some (newest (m.holds a) m.nodes.size) :=
  walk_eq hm a (Nat.le_refl _) (Nat.le_refl _) (hm.head_eq _ (bucket_lt hm.width_pos a))

/-- A map answers with the value of the newest node that has the address. -/
theorem lookup?_eq {m : AddressMap width} (hm : m.Linked) (a : Address) :
    m.lookup? a = if newest (m.holds a) m.nodes.size = 0 then none
      else some (m.node (newest (m.holds a) m.nodes.size)).value := by
  have hvalue : m.lookup? a = ((m.find? a).map m.place).map fun i => (m.node i).value := by
    rw [Option.map_map]
    rfl
  rw [hvalue, place_find? hm]
  split <;> rfl

section Insert

variable {m : AddressMap width}

theorem modify_push_size {α : Type} (xs : Array α) (x : α) (f : α → α) :
    (xs.push x).modify xs.size f = xs.push (f x) := by
  apply Array.ext
  · simp
  · intro i h₁ h₂
    rw [Array.getElem_modify, Array.getElem_push, Array.getElem_push]
    split
    · rename_i h
      rw [dif_neg (by omega), dif_neg (by omega)]
    · rename_i h
      simp only [Array.size_push] at h₂
      rw [dif_pos (by omega), dif_pos (by omega)]

/-- The head of the bucket holds the new node, so that this is the one that is written. -/
theorem insert_eq (hm : m.Linked) (a : Address) (v : Nat) :
    m.insert a v =
      { heads := m.heads.setIfInBounds (bucket width a) m.nodes.size
        nodes := m.nodes.push
          { next := m.place (.head (bucket width a)), address := a, value := v } } := by
  have hb : bucket width a < m.heads.size := by
    rw [hm.heads_size]
    exact bucket_lt hm.width_pos a
  simp only [insert, add, write, place, Array.getD_eq_getD_getElem?, AddressMap.mk.injEq, true_and]
  rw [Array.getElem?_setIfInBounds_self_of_lt hb, Option.getD_some, modify_push_size]

/-- Writing through the slot of an addition once more replaces the value. -/
theorem write_insert (hm : m.Linked) (a : Address) (v w : Nat) :
    (m.insert a v).write (.head (bucket width a)) w = m.insert a w := by
  have hb : bucket width a < m.heads.size := by
    rw [hm.heads_size]
    exact bucket_lt hm.width_pos a
  rw [insert_eq hm, insert_eq hm]
  simp only [write, place, Array.getD_eq_getD_getElem?, AddressMap.mk.injEq, true_and]
  rw [Array.getElem?_setIfInBounds_self_of_lt hb, Option.getD_some, modify_push_size]

theorem node_insert (hm : m.Linked) (a : Address) (v i : Nat) :
    (m.insert a v).node i = if i = m.nodes.size then
      { next := m.place (.head (bucket width a)), address := a, value := v } else m.node i := by
  simp only [node, insert_eq hm, Array.getD_eq_getD_getElem?, Array.getElem?_push]
  split <;> rfl

theorem size_insert (hm : m.Linked) (a : Address) (v : Nat) :
    (m.insert a v).nodes.size = m.nodes.size + 1 := by
  rw [insert_eq hm, Array.size_push]

theorem inBucket_insert (hm : m.Linked) (a : Address) (v b : Nat) {i : Nat}
    (h : i < m.nodes.size) : (m.insert a v).inBucket b i = m.inBucket b i := by
  rw [inBucket, node_insert hm, if_neg (Nat.ne_of_lt h), inBucket]

theorem Linked.insert (hm : m.Linked) (a : Address) (v : Nat) : (m.insert a v).Linked where
  width_pos := hm.width_pos
  heads_size := by rw [insert_eq hm, Array.size_setIfInBounds, hm.heads_size]
  nodes_pos := by rw [size_insert hm]; omega
  head_eq := by
    intro b hb
    have hold : newest ((m.insert a v).inBucket b) m.nodes.size = m.place (.head b) := by
      rw [hm.head_eq b hb]
      exact newest_congr fun j hj _ => inBucket_insert hm a v b hj
    have hn0 := Nat.ne_of_gt hm.nodes_pos
    have hsize : b < m.heads.size := by rwa [hm.heads_size]
    rw [size_insert hm, newest, hold]
    simp only [inBucket, node_insert hm, if_pos, beq_iff_eq]
    simp only [place, insert_eq hm, Array.getD_eq_getD_getElem?]
    -- The new node is the newest of its own bucket, and the other heads stay.
    split
    · rename_i h
      obtain ⟨-, rfl⟩ := h
      rw [Array.getElem?_setIfInBounds_self_of_lt hsize, Option.getD_some]
    · rename_i h
      rw [Array.getElem?_setIfInBounds_ne fun h' => h ⟨hn0, h'⟩]
  next_eq := by
    intro i hi h0
    rw [size_insert hm] at hi
    rw [node_insert hm]
    split
    · rename_i h
      rw [h, hm.head_eq _ (bucket_lt hm.width_pos a)]
      exact newest_congr fun j hj _ => (inBucket_insert hm a v _ hj).symm
    · rename_i h
      rw [hm.next_eq i (by omega) h0]
      exact newest_congr fun j hj _ => (inBucket_insert hm a v _ (by omega)).symm

theorem lookup?_insert (hm : m.Linked) (a b : Address) (v : Nat) :
    (m.insert a v).lookup? b = if a = b then some v else m.lookup? b := by
  have hn0 := Nat.ne_of_gt hm.nodes_pos
  have hold : newest ((m.insert a v).holds b) m.nodes.size = newest (m.holds b) m.nodes.size :=
    newest_congr fun j hj _ => by rw [holds, node_insert hm, if_neg (Nat.ne_of_lt hj), holds]
  have hnew : newest ((m.insert a v).holds b) (m.nodes.size + 1) =
      if a = b then m.nodes.size else newest (m.holds b) m.nodes.size := by
    rw [newest, hold, holds, node_insert hm, if_pos rfl]
    by_cases hab : a = b
    · rw [if_pos ⟨hn0, beq_iff_eq.2 hab⟩, if_pos hab]
    · rw [if_neg fun h => hab (beq_iff_eq.1 h.2), if_neg hab]
  rw [lookup?_eq (hm.insert a v), lookup?_eq hm, size_insert hm, hnew]
  by_cases hab : a = b
  · simp only [if_pos hab, if_neg hn0, node_insert hm, if_pos]
  · simp only [if_neg hab]
    split
    · rfl
    · rename_i h
      obtain ⟨hlt, -⟩ := newest_spec h
      rw [node_insert hm, if_neg (Nat.ne_of_lt hlt)]

end Insert

section Clear

variable {m : AddressMap width}

theorem size_clear (hm : 0 < m.nodes.size) : m.clear.nodes.size = 1 := by
  simp only [clear, Array.take_eq_extract, Array.size_extract]
  omega

theorem linked_clear (hw : 0 < width) (hm : 0 < m.nodes.size) : m.clear.Linked where
  width_pos := hw
  heads_size := by simp [clear]
  nodes_pos := by rw [size_clear hm]; omega
  head_eq := by
    intro b hb
    rw [size_clear hm]
    simp [place, clear, newest, Array.getD_eq_getD_getElem?, hb]
  next_eq := by
    intro i hi h0
    rw [size_clear hm] at hi
    omega

theorem lookup?_clear (hw : 0 < width) (hm : 0 < m.nodes.size) (a : Address) :
    m.clear.lookup? a = none := by
  rw [lookup?_eq (linked_clear hw hm), size_clear hm]
  rfl

/-- What was inserted leaves nothing behind once the map is cleared. -/
theorem clear_insert (hm : m.Linked) (a : Address) (v : Nat) : (m.insert a v).clear = m.clear := by
  have hpos := hm.nodes_pos
  have hnodes : (m.nodes.push { next := m.place (.head (bucket width a)), address := a, value := v
      }).take 1 = m.nodes.take 1 := by
    simp only [Array.take_eq_extract]
    rw [Array.extract_push_of_le (by omega)]
  rw [insert_eq hm, clear, clear, hnodes]

theorem clear_empty : (empty : AddressMap width).clear = empty := rfl

theorem linked_empty (hw : 0 < width) : (empty : AddressMap width).Linked := by
  rw [← clear_empty]
  exact linked_clear hw Nat.one_pos

theorem lookup?_empty (hw : 0 < width) (a : Address) :
    (empty : AddressMap width).lookup? a = none := by
  rw [← clear_empty]
  exact @lookup?_clear width empty hw Nat.one_pos a

end Clear

end OfflineTx.AddressMap
