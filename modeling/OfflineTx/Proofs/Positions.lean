import Mathlib.Algebra.Group.Action.Defs
import Mathlib.Algebra.Order.BigOperators.Group.List
import Mathlib.Algebra.Order.Ring.Nat
import OfflineTx.Proofs.Permissions
import OfflineTx.Proofs.RoundTrip

/-!
# Permissions of all accounts in order

The accounts of a message are those of its table and behind them those that its lookups load, the
ones to be written first. In a message that was read no count passes a machine word and no
difference of counts goes below zero (`unwrapped_groups`). So the permissions at an index follow
from comparisons of numbers (`permissionsAt_eq`), and over all indices they lie in six runs
(`follows_of_decode`).
-/

namespace OfflineTx.Message

/-- The number of accounts that the lookups load to be written. -/
def loadedWritable (m : Message) : Nat :=
  (m.lookups.flatMap (·.writable)).length

/-- The number of accounts that the lookups load to be read. -/
def loadedReadonly (m : Message) : Nat :=
  (m.lookups.flatMap (·.readonly)).length

/-- Whether the account at the index signs, and whether it may be written. -/
def permissionsAt (m : Message) (i : Nat) : Bool × Bool :=
  (m.isSigner (.ofNat i), m.isWritable (.ofNat i))

/-- The permissions of six groups of accounts: those that sign, the others in the table and the
loaded ones, each to be written first and then to be read. -/
def permissionRuns (m : Message) : List (Bool × Bool) :=
  List.replicate (m.required - m.header.readonlySigned.toNat) (true, true) ++
    List.replicate m.header.readonlySigned.toNat (true, false) ++
    List.replicate (m.keys.length - m.required - m.header.readonlyUnsigned.toNat) (false, true) ++
    List.replicate m.header.readonlyUnsigned.toNat (false, false) ++
    List.replicate m.loadedWritable (false, true) ++
    List.replicate m.loadedReadonly (false, false)

/-- None of the differences by which an index tells whether its account may be written goes below
zero. -/
structure Groups.Unwrapped (g : Groups) (index : UInt64) : Prop where
  signers : (g.signers - g.readonlySigned).toNat + g.readonlySigned.toNat = g.signers.toNat
  keys : (g.keys - g.readonlyUnsigned).toNat + g.readonlyUnsigned.toNat = g.keys.toNat
  loaded : ¬index < g.signers → ¬index < g.keys →
    (index - g.keys).toNat + g.keys.toNat = index.toNat

/-- The accounts of the message have the permissions that its header and its lookups give them,
group by group, and its instructions refer to no others. -/
structure Follows (m : Message) : Prop where
  count_lt : m.keys.length + m.loadedWritable + m.loadedReadonly < 2 ^ 64
  permissions : (List.range (m.keys.length + m.loadedWritable + m.loadedReadonly)).map
      m.permissionsAt = m.permissionRuns
  unwrapped : ∀ index, m.groups.Unwrapped index
  program_lt : ∀ ix ∈ m.instructions,
    ix.program.toNat < m.keys.length + m.loadedWritable + m.loadedReadonly
  account_lt : ∀ ix ∈ m.instructions, ∀ i ∈ ix.accounts,
    i.toNat < m.keys.length + m.loadedWritable + m.loadedReadonly

variable {m : Message}

theorem accountCount_eq (m : Message) :
    m.accountCount = m.keys.length + m.loadedWritable + m.loadedReadonly := by
  have hsum := List.sum_map_add (l := m.lookups) (f := fun l => l.writable.length)
    (g := fun l => l.readonly.length)
  simp only [accountCount, loadedWritable, loadedReadonly, List.length_flatMap,
    List.length_append, hsum, Nat.add_assoc]

theorem length_flatMap_le {α β : Type} {f : α → List β} {bound : Nat} {xs : List α}
    (h : ∀ x ∈ xs, (f x).length ≤ bound) : (xs.flatMap f).length ≤ xs.length * bound := by
  have hsum := List.sum_le_card_nsmul (xs.map fun x => (f x).length) bound (by simpa using h)
  rwa [List.length_map, smul_eq_mul, ← List.length_flatMap] at hsum

/-- A run of equal values over further numbers. -/
theorem map_range_run {α : Type} {f : Nat → α} {a b c : Nat} {x : α} {xs : List α}
    (hxs : (List.range a).map f = xs) (hc : c = a + b) (hx : ∀ i, a ≤ i → i < c → f i = x) :
    (List.range c).map f = xs ++ List.replicate b x := by
  have hrun : (List.range b).map (fun i => f (a + i)) = List.replicate b x := by
    refine List.eq_replicate_iff.2 ⟨by simp, fun y hy => ?_⟩
    obtain ⟨i, hi, rfl⟩ := List.mem_map.1 hy
    exact hx _ (Nat.le_add_right a i) (by rw [hc]; simpa using hi)
  rw [hc, List.range_add, List.map_append, List.map_map, hxs, ← hrun]
  rfl

theorem toNat_sub_add {a b : UInt64} (h : b ≤ a) : (a - b).toNat + b.toNat = a.toNat := by
  rw [UInt64.toNat_sub_of_le _ _ h]
  exact Nat.sub_add_cancel (UInt64.le_iff_toNat_le.1 h)

section Consistent

variable (hc : m.Consistent) (hl : m.Countable)

include hc hl in
theorem count_lt : m.keys.length + m.loadedWritable + m.loadedReadonly < 2 ^ 64 := by
  have hkeys := hl.keys
  have hlookups : m.lookups.length ≤ 0xffff ∧ ∀ l ∈ m.lookups, l.Countable := by
    rcases hv : m.version with _ | _
    · simp [(hc.legacy hv).1]
    · exact hl.lookups hv
  have hw := length_flatMap_le (f := (·.writable)) fun l hmem => (hlookups.2 l hmem).writable
  have hr := length_flatMap_le (f := (·.readonly)) fun l hmem => (hlookups.2 l hmem).readonly
  unfold loadedWritable loadedReadonly
  omega

include hc hl in
theorem keys_length_lt : m.keys.length < 2 ^ 64 :=
  Nat.lt_of_le_of_lt (Nat.le_trans (Nat.le_add_right _ _) (Nat.le_add_right _ _)) (count_lt hc hl)

/-- Loaded accounts do not sign, and may be written up to the number of those that may. -/
theorem isWritable_loaded {i : Nat} (hreq : m.required ≤ m.keys.length)
    (hw : m.loadedWritable < 2 ^ 64) (hi : m.keys.length ≤ i) (hlt : i < 2 ^ 64) :
    m.isWritable (.ofNat i) = decide (i < m.keys.length + m.loadedWritable) := by
  have hn : m.keys.length < 2 ^ 64 := Nat.lt_of_le_of_lt hi hlt
  have hle : UInt64.ofNat m.keys.length ≤ UInt64.ofNat i := by
    rwa [UInt64.le_iff_toNat_le, UInt64.toNat_ofNat_of_lt' hn, UInt64.toNat_ofNat_of_lt' hlt]
  have hdiff : (UInt64.ofNat i - UInt64.ofNat m.keys.length).toNat = i - m.keys.length := by
    rw [UInt64.toNat_sub_of_le _ _ hle, UInt64.toNat_ofNat_of_lt' hn, UInt64.toNat_ofNat_of_lt' hlt]
  have hr : m.header.required.toUInt64.toNat = m.required := UInt8.toNat_toUInt64 _
  rw [loadedWritable] at hw ⊢
  simp only [isWritable, Groups.isWritable, groups, UInt64.lt_iff_toNat_lt,
    UInt64.toNat_ofNat_of_lt' hlt, UInt64.toNat_ofNat_of_lt' hn, UInt64.toNat_ofNat_of_lt' hw, hr,
    hdiff]
  rw [if_neg (by omega), if_neg (by omega)]
  exact decide_eq_decide.2 (by omega)

include hc hl

theorem permissionsAt_eq {i : Nat}
    (hi : i < m.keys.length + m.loadedWritable + m.loadedReadonly) {p : Bool × Bool}
    (hsigner : p.1 = true ↔ i < m.required)
    (hwritable : p.2 = true ↔ i + m.header.readonlySigned.toNat < m.required ∨
      m.required ≤ i ∧ i + m.header.readonlyUnsigned.toNat < m.keys.length ∨
      m.keys.length ≤ i ∧ i < m.keys.length + m.loadedWritable) :
    m.permissionsAt i = p := by
  have hlt := count_lt hc hl
  have hreq := hc.required_le
  have hrs := hc.readonlySigned_le
  have hru := hc.readonlyUnsigned_le
  refine Prod.ext ?_ ?_
  · rw [permissionsAt, isSigner_ofNat (by omega), Bool.eq_iff_iff, hsigner, decide_eq_true_eq]
  · rw [permissionsAt, Bool.eq_iff_iff, hwritable]
    rcases Nat.lt_or_ge i m.keys.length with hkey | hkey
    · rw [isWritable_ofNat (keys_length_lt hc hl) hrs (by omega) hkey, decide_eq_true_eq]
      omega
    · rw [isWritable_loaded hreq (by omega) hkey (by omega), decide_eq_true_eq]
      omega

theorem permissions_eq : (List.range (m.keys.length + m.loadedWritable + m.loadedReadonly)).map
      m.permissionsAt = m.permissionRuns := by
  have hreq := hc.required_le
  have hrs := hc.readonlySigned_le
  have hru := hc.readonlyUnsigned_le
  have hat {i : Nat} {p : Bool × Bool} := permissionsAt_eq hc hl (i := i) (p := p)
  have hsw : (List.range (m.required - m.header.readonlySigned.toNat)).map m.permissionsAt =
      [] ++ List.replicate (m.required - m.header.readonlySigned.toNat) (true, true) :=
    map_range_run (a := 0) rfl (by omega) fun i hge hlt =>
      hat (by omega) (by simp; omega) (by simp; omega)
  rw [List.nil_append] at hsw
  have hsr := map_range_run (c := m.required) (x := (true, false)) hsw
    (Nat.sub_add_cancel hrs).symm fun i hge hlt => hat (by omega) (by simp; omega) (by simp; omega)
  have huw := map_range_run (c := m.keys.length - m.header.readonlyUnsigned.toNat)
    (b := m.keys.length - m.required - m.header.readonlyUnsigned.toNat) (x := (false, true)) hsr
    (by omega) fun i hge hlt => hat (by omega) (by simp; omega) (by simp; omega)
  have hur := map_range_run (c := m.keys.length) (x := (false, false)) huw
    (b := m.header.readonlyUnsigned.toNat) (by omega)
    fun i hge hlt => hat (by omega) (by simp; omega) (by simp; omega)
  have hlw := map_range_run (x := (false, true)) (b := m.loadedWritable) hur rfl
    fun i hge hlt => hat (by omega) (by simp; omega) (by simp; omega)
  exact map_range_run hlw rfl fun i hge hlt => hat hlt (by simp; omega) (by simp; omega)

theorem unwrapped_groups (index : UInt64) : m.groups.Unwrapped index where
  signers := by
    refine toNat_sub_add ?_
    simp only [groups, UInt64.le_iff_toNat_le, UInt8.toNat_toUInt64]
    exact hc.readonlySigned_le
  keys := by
    have hreq := hc.required_le
    have hru := hc.readonlyUnsigned_le
    refine toNat_sub_add ?_
    simp only [groups, UInt64.le_iff_toNat_le, UInt8.toNat_toUInt64,
      UInt64.toNat_ofNat_of_lt' (keys_length_lt hc hl)]
    omega
  loaded _ hkey := toNat_sub_add (UInt64.not_lt.1 hkey)

end Consistent

/-- The accounts of a message that was read have the permissions that its header and its lookups
give them, and its instructions refer to no others. -/
theorem follows_of_decode {r r' : Wire.Reader} (h : decode r = .ok (m, r')) : m.Follows := by
  obtain ⟨⟨hc, hl⟩, -⟩ := (decode_reads r m r').1 h
  refine ⟨count_lt hc hl, permissions_eq hc hl, unwrapped_groups hc hl, ?_, ?_⟩
  · rw [← accountCount_eq]
    exact hc.program_lt
  · rw [← accountCount_eq]
    exact hc.account_lt

/-- All six groups, with two lookups and a group of no accounts. -/
def assorted : Message where
  version := .v0
  header := { required := 3, readonlySigned := 1, readonlyUnsigned := 2 }
  keys := [.zero 32, .padded 32 [1], .padded 32 [2], .padded 32 [3], .padded 32 [4]]
  instructions := [{ program := 4, accounts := [0, 9, 7, 2], data := [7] }]
  lookups := [{ table := .padded 32 [5], writable := [9], readonly := [4, 5] },
    { table := .padded 32 [6], writable := [2, 8], readonly := [] }]

set_option maxRecDepth 4000 in
theorem follows_assorted :
    decode (.ofBytes assorted.wire) = .ok (assorted, ⟨assorted.wire.length, []⟩) ∧
      assorted.Follows ∧ (List.range 10).map assorted.permissionsAt =
        [(true, true), (true, true), (true, false), (false, false), (false, false),
          (false, true), (false, true), (false, true), (false, false), (false, false)] := by
  have hread : decode (.ofBytes assorted.wire) =
      .ok (assorted, ⟨assorted.wire.length, []⟩) := rfl
  have hfollows := follows_of_decode hread
  exact ⟨hread, hfollows, hfollows.permissions⟩

end OfflineTx.Message
