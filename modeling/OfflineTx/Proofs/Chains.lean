import OfflineTx.Proofs.Compilation
import OfflineTx.Proofs.NarrowLinks
import OfflineTx.Proofs.Reuse

/-!
# Chains of nodes

In a linked map the chain of a bucket leads through the places of the bucket from the greatest to
the least (`chain_of_newest`). It has no place twice, so that following it ends (`search_walk`). The
nodes of the map are the additions since it was last cleared, each with the last value that was
written for it. Clearing and adding keep this (`Represents.step`), so the map answers as the list of
the additions does (`refines_run`).
-/

namespace OfflineTx

namespace AddressMap

variable {width : Nat}

/-- What is done with a map: an addition goes with the values that are written through the slot it
returns before anything else is done. -/
inductive Call
  | clear
  | add (a : Address) (written : List Nat)

def step (m : AddressMap width) : Call → AddressMap width
  | .clear => m.clear
  | .add a written =>
    let (slot, m) := m.add a
    written.foldl (fun m value => m.write slot value) m

def run (width : Nat) (calls : List Call) : AddressMap width :=
  calls.foldl step .empty

/-- The additions since the map was last cleared, newest first, each with the last value that was
written for it, or with zero if none was. -/
def note (es : List (Address × Nat)) : Call → List (Address × Nat)
  | .clear => []
  | .add a written => (a, written.getLastD 0) :: es

def entries (calls : List Call) : List (Address × Nat) :=
  calls.foldl note []

/-- From the slot the links lead through these places and then end. -/
inductive Chain (m : AddressMap width) : Slot → List Nat → Prop
  | ended {s : Slot} (h : m.place s = 0) : Chain m s []
  | linked {s : Slot} {i : Nat} {places : List Nat} (h : m.place s = i) (h0 : i ≠ 0)
      (hrest : Chain m (.behind i) places) : Chain m s (i :: places)

/-- Looking for the address from the slot on ends with this outcome, after however many links. -/
inductive Search (m : AddressMap width) (a : Address) : Slot → Option Slot → Prop
  | ended {s : Slot} (h : m.place s = 0) : Search m a s none
  | found {s : Slot} (h : m.place s ≠ 0) (ha : (m.node (m.place s)).address = a) :
      Search m a s (some s)
  | passed {s : Slot} {outcome : Option Slot} (h : m.place s ≠ 0)
      (ha : (m.node (m.place s)).address ≠ a)
      (hrest : Search m a (.behind (m.place s)) outcome) : Search m a s outcome

/-- The map is a finite map that has these entries, newest first. -/
structure Refines (m : AddressMap width) (es : List (Address × Nat)) : Prop where
  chains : ∀ b < width, ∃ places, m.Chain (.head b) places ∧ places.Pairwise (· > ·) ∧
    ∀ i, i ∈ places ↔ i ≠ 0 ∧ i < m.nodes.size ∧ bucket width (m.node i).address = b
  searched : ∀ a, m.Search a (.head (bucket width a)) (m.find? a)
  found_iff : ∀ a, (∃ s, m.find? a = some s) ↔ a ∈ es.map Prod.fst
  found : ∀ a s, m.find? a = some s →
    (m.node (m.place s)).address = a ∧ es.find? (·.1 == a) = some (a, m.value s)
  size_eq : m.size = es.length

section Chains

variable {m : AddressMap width} {a : Address} {b : Nat}

/-- The places of a bucket below a bound, the greatest first. -/
def placesIn (m : AddressMap width) (b n : Nat) : List Nat :=
  (List.range n).reverse.filter fun i => i != 0 && m.inBucket b i

theorem mem_placesIn {n i : Nat} :
    i ∈ m.placesIn b n ↔ i ≠ 0 ∧ i < n ∧ bucket width (m.node i).address = b := by
  simp [placesIn, inBucket, and_left_comm]

theorem pairwise_placesIn (m : AddressMap width) (b n : Nat) :
    (m.placesIn b n).Pairwise (· > ·) :=
  (List.pairwise_reverse.2 List.pairwise_lt_range).filter _

/-- Zero is no place, so a bucket has fewer places than the bound. -/
theorem length_placesIn_lt {n : Nat} (hn : 0 < n) : (m.placesIn b n).length < n := by
  have hzero : ∃ i ∈ (List.range n).reverse, ¬(i != 0 && m.inBucket b i) = true :=
    ⟨0, by simpa using hn, by simp⟩
  simpa [placesIn] using List.length_filter_lt_length_iff_exists.2 hzero

/-- From a slot that holds the newest place below a bound of its bucket, the links lead through all
places of the bucket below the bound. -/
theorem chain_of_newest (hm : m.Linked) : ∀ {n : Nat} {s : Slot}, n ≤ m.nodes.size →
    m.place s = newest (m.inBucket b) n → m.Chain s (m.placesIn b n)
  | 0, _, _, hs => .ended hs
  | n + 1, s, hn, hs => by
    rw [newest] at hs
    rw [placesIn, List.range_succ, List.reverse_append, List.reverse_singleton,
      List.singleton_append]
    split at hs
    · rename_i hin
      rw [List.filter_cons_of_pos (by simpa using hin)]
      have hb : bucket width (m.node n).address = b := by simpa [inBucket] using hin.2
      refine .linked hs hin.1 (chain_of_newest hm (Nat.le_of_succ_le hn) ?_)
      rw [place, hm.next_eq n hn hin.1, hb]
    · rename_i hin
      rw [List.filter_cons_of_neg (by simpa using hin)]
      exact chain_of_newest hm (Nat.le_of_succ_le hn) hs

/-- A walk that may take as many steps as the chain has places gets to the end by itself. -/
theorem search_walk {s : Slot} {places : List Nat} (h : m.Chain s places) :
    ∀ {fuel : Nat}, places.length < fuel → m.Search a s (m.walk a fuel s) := by
  induction h with
  | ended h =>
    rintro (_ | fuel) hlt
    · exact absurd hlt (Nat.not_lt_zero _)
    · rw [walk, if_pos h]
      exact .ended h
  | linked h h0 _ ih =>
    rintro (_ | fuel) hlt
    · exact absurd hlt (Nat.not_lt_zero _)
    · subst h
      simp only [walk, if_neg h0]
      split
      · rename_i ha
        exact .found h0 ha
      · rename_i ha
        exact .passed h0 ha (ih (Nat.lt_of_succ_lt_succ hlt))

theorem chain_head (hm : m.Linked) (hb : b < width) :
    m.Chain (.head b) (m.placesIn b m.nodes.size) :=
  chain_of_newest hm (Nat.le_refl _) (hm.head_eq b hb)

theorem search_find? (hm : m.Linked) (a : Address) :
    m.Search a (.head (bucket width a)) (m.find? a) :=
  search_walk (chain_head hm (bucket_lt hm.width_pos a)) (length_placesIn_lt hm.nodes_pos)

end Chains

section Additions

variable {m : AddressMap width} {s : Slot} {v : Nat}

/-- The first `n` additions, newest first. -/
def added (m : AddressMap width) : Nat → List (Address × Nat)
  | 0 => []
  | n + 1 => ((m.node (n + 1)).address, (m.node (n + 1)).value) :: m.added n

theorem length_added (m : AddressMap width) : ∀ n, (m.added n).length = n
  | 0 => rfl
  | n + 1 => by rw [added, List.length_cons, length_added m n]

theorem added_congr {m' : AddressMap width} :
    ∀ {n : Nat}, (∀ i ≤ n, m'.node i = m.node i) → m'.added n = m.added n
  | 0, _ => rfl
  | n + 1, h => by
    rw [added, added, h (n + 1) (Nat.le_refl _), added_congr fun i hi => h i (Nat.le_succ_of_le hi)]

/-- The newest addition of an address is the one at its newest place. -/
theorem find?_added (m : AddressMap width) (a : Address) : ∀ n,
    (m.added n).find? (fun e => e.1 == a) =
      if newest (m.holds a) (n + 1) = 0 then none
      else some (a, (m.node (newest (m.holds a) (n + 1))).value)
  | 0 => rfl
  | n + 1 => by
    rw [added, newest_succ]
    by_cases h : (m.node (n + 1)).address = a
    · simp [holds, h]
    · have hne : m.holds a (n + 1) ≠ true := by simpa [holds] using h
      rw [List.find?_cons_of_neg (by simpa using h), find?_added m a n, if_neg hne]

theorem mem_added {a : Address} {n : Nat} :
    a ∈ (m.added n).map Prod.fst ↔ newest (m.holds a) (n + 1) ≠ 0 := by
  have hmem : a ∈ (m.added n).map Prod.fst ↔
      ((m.added n).find? fun e => e.1 == a).isSome = true := by
    simp [List.find?_isSome]
  rw [hmem, find?_added]
  split <;> simp [*]

end Additions

/-- The map is linked, and these are all its additions. -/
structure Represents (m : AddressMap width) (es : List (Address × Nat)) : Prop where
  linked : m.Linked
  entries_eq : es = m.added m.size

section Run

variable {m : AddressMap width} {es : List (Address × Nat)}

theorem Linked.size_succ (hm : m.Linked) : m.size + 1 = m.nodes.size :=
  Nat.sub_add_cancel hm.nodes_pos

theorem add_eq_insert (hm : m.Linked) (a : Address) : (m.add a).2 = m.insert a 0 :=
  (insert_eq hm a 0).symm

/-- Through the slot of an addition its node is written, so the last value stays. -/
theorem foldl_write_insert (hm : m.Linked) (a : Address) : ∀ (written : List Nat) (value : Nat),
    written.foldl (fun m value => m.write (.head (bucket width a)) value) (m.insert a value) =
      m.insert a (written.getLastD value)
  | [], _ => rfl
  | new :: written, value => by
    rw [List.foldl_cons, write_insert hm, foldl_write_insert hm a written new, List.getLastD_cons]

theorem step_add (hm : m.Linked) (a : Address) (written : List Nat) :
    m.step (.add a written) = m.insert a (written.getLastD 0) := by
  change written.foldl _ (m.add a).2 = _
  rw [add_eq_insert hm]
  exact foldl_write_insert hm a written 0

theorem Represents.step (h : m.Represents es) (c : Call) : (m.step c).Represents (note es c) := by
  obtain ⟨hm, rfl⟩ := h
  have hsize := hm.size_succ
  cases c with
  | clear =>
    refine ⟨linked_clear hm.width_pos hm.nodes_pos, ?_⟩
    have hclear : m.clear.size = 0 := by rw [size, size_clear hm.nodes_pos]
    change [] = m.clear.added m.clear.size
    rw [hclear]
    rfl
  | add a written =>
    rw [step_add hm]
    refine ⟨hm.insert a _, ?_⟩
    have hgrown : (m.insert a (written.getLastD 0)).size = m.size + 1 := by
      rw [size, size_insert hm, size]
      have := hm.nodes_pos
      omega
    rw [hgrown, added, node_insert hm, if_pos hsize]
    refine congrArg _ (added_congr fun i hi => ?_).symm
    rw [node_insert hm, if_neg (by omega)]

theorem length_entries_le (calls : List Call) : (entries calls).length ≤ calls.length := by
  induction calls using List.reverseRecOn with
  | nil => exact Nat.le_refl 0
  | append_singleton calls c ih =>
    rw [entries, List.foldl_append, List.length_append]
    cases c with
    | clear => exact Nat.zero_le _
    | add a written => exact Nat.succ_le_succ ih

theorem represents_run (hw : 0 < width) (calls : List Call) :
    (run width calls).Represents (entries calls) := by
  have hfold : ∀ (calls : List Call) {m : AddressMap width} {es : List (Address × Nat)},
      m.Represents es → (calls.foldl AddressMap.step m).Represents (calls.foldl note es) := by
    intro calls
    induction calls with
    | nil => exact fun h => h
    | cons c calls ih => exact fun h => ih (h.step c)
  exact hfold calls ⟨linked_empty hw, rfl⟩

theorem Represents.refines (h : m.Represents es) : m.Refines es := by
  obtain ⟨hm, rfl⟩ := h
  refine ⟨fun b hb => ?_, search_find? hm, fun a => ?_, fun a s hs => ?_, ?_⟩
  · exact ⟨_, chain_head hm hb, pairwise_placesIn m b _, fun i => mem_placesIn⟩
  · have hplace := place_find? hm a
    rw [mem_added, hm.size_succ]
    split at hplace
    · rename_i h0
      simp [h0, Option.map_eq_none_iff.1 hplace]
    · rename_i h0
      obtain ⟨s, hs, -⟩ := Option.map_eq_some_iff.1 hplace
      simp [h0, hs]
  · have hplace := place_find? hm a
    rw [hs, Option.map_some] at hplace
    split at hplace
    · cases hplace
    · rename_i h0
      have hi := Option.some.inj hplace
      refine ⟨?_, ?_⟩
      · rw [hi]
        exact beq_iff_eq.1 (newest_spec h0).2
      · rw [find?_added, hm.size_succ, if_neg h0, value, hi]
  · exact (length_added m _).symm

end Run

end AddressMap

namespace NarrowMap

open AddressMap (Call entries represents_run)

variable {width : Nat}

def step (m : NarrowMap width) : Call → NarrowMap width
  | .clear => m.clear
  | .add a written =>
    let (slot, m) := m.add a
    written.foldl (fun m value => m.write slot value) m

def run (width : Nat) (calls : List Call) : NarrowMap width :=
  calls.foldl step .empty

/-- At no time are there more nodes than places of 32 bits. -/
def Fits (calls : List Call) : Prop :=
  ∀ before, before <+: calls → (entries before).length + 1 < UInt32.size

theorem widen_foldl_write (slot : AddressMap.Slot) : ∀ (written : List Nat) (m : NarrowMap width),
    (written.foldl (fun m value => m.write slot value) m).widen =
      written.foldl (fun m value => m.write slot value) m.widen
  | [], _ => rfl
  | value :: written, m => by
    rw [List.foldl_cons, List.foldl_cons, widen_foldl_write slot written, write_widen]

theorem widen_step {m : NarrowMap width} (c : Call) (h0 : 0 < m.nodes.size)
    (h : ∀ a written, c = .add a written → m.nodes.size + 1 < UInt32.size) :
    (m.step c).widen = m.widen.step c := by
  cases c with
  | clear => exact clear_widen h0
  | add a written =>
    change (written.foldl _ (m.add a).2).widen = _
    rw [widen_foldl_write, (add_widen (h a written rfl) a).2]
    rfl

/-- As long as they fit 32 bits, the places are those of the map with unbounded places. -/
theorem widen_run (hw : 0 < width) (calls : List Call) (h : Fits calls) :
    (run width calls).widen = AddressMap.run width calls := by
  induction calls using List.reverseRecOn with
  | nil => exact widen_empty
  | append_singleton calls c ih =>
    have ih := ih fun before hbefore => h before (hbefore.trans (List.prefix_append _ _))
    have hrun := represents_run hw calls
    have hsize : (run width calls).nodes.size = (entries calls).length + 1 := by
      rw [← size_widen, ih, ← hrun.linked.size_succ, hrun.refines.size_eq]
    rw [run, AddressMap.run, List.foldl_append, List.foldl_append]
    change (step (run width calls) c).widen = AddressMap.step (AddressMap.run width calls) c
    rw [← ih]
    refine widen_step c (by omega) fun a written hc => ?_
    subst hc
    have hfits := h (calls ++ [.add a written]) List.prefix_rfl
    rw [hsize]
    simpa [entries, AddressMap.note] using hfits

end NarrowMap

namespace AddressMap

/-- Two addresses that share a bucket, before and after the map is cleared, and one of them added
twice. -/
def crowded : List Call :=
  let a : Address := .padded 32 [1]
  let b : Address := .padded 32 [10, 2]
  [.add b [5], .add a [], .clear, .add a [7], .add b [6, 8], .add a [9]]

end AddressMap

end OfflineTx
