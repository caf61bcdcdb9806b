import OfflineTx.Proofs.AddressMap

/-!
# Links of 32 bits

The places of a map that is kept in memory are numbers of 32 bits, and the row of nodes is made as
long as such a number says. While there are fewer than `2 ^ 32 - 1` nodes nothing wraps, and each
operation is the one on unbounded places (`add_widen`, `write_widen`, `clear_widen`,
`find?_widen`). The addition after that makes the row as long as zero, and the nodes are lost
(`nodes_add_full`).
-/

namespace OfflineTx

namespace NarrowMap

structure Node where
  next : UInt32
  address : Address
  value : Nat

def Node.none : Node where
  next := 0
  address := .zero 32
  value := 0

end NarrowMap

/-- A map whose places are numbers of 32 bits. -/
structure NarrowMap (width : Nat) where
  heads : Array UInt32
  nodes : Array NarrowMap.Node

namespace NarrowMap

open AddressMap (Slot bucket)

variable {width : Nat}

def empty : NarrowMap width where
  heads := .replicate width 0
  nodes := #[.none]

/-- Makes a row of nodes so long: the last are dropped, or empty nodes are put behind them. -/
def resize (nodes : Array Node) (n : Nat) : Array Node :=
  nodes.take n ++ Array.replicate (n - nodes.size) .none

def clear (m : NarrowMap width) : NarrowMap width where
  heads := .replicate width 0
  nodes := resize m.nodes 1

def node (m : NarrowMap width) (i : Nat) : Node :=
  m.nodes.getD i .none

def place (m : NarrowMap width) : Slot → UInt32
  | .head b => m.heads.getD b 0
  | .behind i => (m.node i).next

def walk (m : NarrowMap width) (a : Address) : Nat → Slot → Option Slot
  | 0, _ => none
  | n + 1, s =>
    let i := m.place s
    if i = 0 then none
    else if (m.node i.toNat).address = a then some s
    else walk m a n (.behind i.toNat)

def find? (m : NarrowMap width) (a : Address) : Option Slot :=
  m.walk a m.nodes.size (.head (bucket width a))

/-- The place of the new node is the number of nodes as far as 32 bits hold it, and so is the number
of nodes from then on. -/
def add (m : NarrowMap width) (a : Address) : Slot × NarrowMap width :=
  let i := UInt32.ofNat m.nodes.size
  let nodes := resize m.nodes (1 + i).toNat
  let b := bucket width a
  (.head b,
    { heads := m.heads.setIfInBounds b i
      nodes := nodes.modify i.toNat fun node =>
        { node with next := m.place (.head b), address := a } })

def write (m : NarrowMap width) (s : Slot) (value : Nat) : NarrowMap width :=
  { m with nodes := m.nodes.modify (m.place s).toNat fun node => { node with value := value } }

def Node.widen (node : Node) : AddressMap.Node where
  next := node.next.toNat
  address := node.address
  value := node.value

/-- The map with its places as unbounded numbers. -/
def widen (m : NarrowMap width) : AddressMap width where
  heads := m.heads.map UInt32.toNat
  nodes := m.nodes.map Node.widen

variable {m : NarrowMap width}

@[simp] theorem size_widen (m : NarrowMap width) : m.widen.nodes.size = m.nodes.size :=
  Array.size_map

theorem widen_empty : (empty : NarrowMap width).widen = AddressMap.empty := by
  simp [widen, empty, AddressMap.empty, Node.widen, Node.none, AddressMap.Node.none]

theorem node_widen (m : NarrowMap width) (i : Nat) : m.widen.node i = (m.node i).widen := by
  simp only [AddressMap.node, widen, node, Array.getD_eq_getD_getElem?, Array.getElem?_map]
  cases m.nodes[i]? <;> rfl

theorem place_widen (m : NarrowMap width) : ∀ s, m.widen.place s = (m.place s).toNat
  | .head b => by
    simp only [AddressMap.place, widen, place, Array.getD_eq_getD_getElem?, Array.getElem?_map]
    cases m.heads[b]? <;> rfl
  | .behind i => by rw [AddressMap.place, node_widen, place, Node.widen]

theorem walk_widen (m : NarrowMap width) (a : Address) : ∀ (fuel : Nat) (s : Slot),
    m.widen.walk a fuel s = m.walk a fuel s
  | 0, _ => rfl
  | fuel + 1, s => by
    have hzero : (m.place s).toNat = 0 ↔ m.place s = 0 := UInt32.toNat_inj (b := 0)
    simp only [AddressMap.walk, walk, place_widen, node_widen, Node.widen, hzero, walk_widen]

/-- What is looked for is found in the same slot, whatever the number of nodes. -/
theorem find?_widen (m : NarrowMap width) (a : Address) : m.widen.find? a = m.find? a := by
  rw [AddressMap.find?, size_widen, walk_widen, find?]

theorem clear_widen (h : 0 < m.nodes.size) : m.clear.widen = m.widen.clear := by
  have hnone : 1 - m.nodes.size = 0 := by omega
  simp [widen, clear, AddressMap.clear, resize, hnone]

theorem write_widen (m : NarrowMap width) (s : Slot) (value : Nat) :
    (m.write s value).widen = m.widen.write s value := by
  simp only [AddressMap.write, place_widen]
  simp only [widen, write, AddressMap.mk.injEq, true_and]
  apply Array.ext
  · simp
  · intro i h₁ h₂
    simp only [Array.getElem_map, Array.getElem_modify]
    split <;> rfl

theorem resize_succ (nodes : Array Node) : resize nodes (nodes.size + 1) = nodes.push .none := by
  rw [resize, Nat.add_sub_cancel_left, Array.take_eq_extract,
    Array.extract_eq_self_of_le (Nat.le_succ _)]
  rfl

/-- While a place more fits 32 bits, the new node stands behind the others. -/
theorem add_widen (h : m.nodes.size + 1 < UInt32.size) (a : Address) :
    (m.add a).1 = (m.widen.add a).1 ∧ (m.add a).2.widen = (m.widen.add a).2 := by
  have hsize : (UInt32.ofNat m.nodes.size).toNat = m.nodes.size :=
    UInt32.toNat_ofNat_of_lt' (Nat.lt_of_succ_lt h)
  have hgrown : (1 + UInt32.ofNat m.nodes.size).toNat = m.nodes.size + 1 := by
    unfold UInt32.size at h
    rw [UInt32.toNat_add, hsize]
    simp
    omega
  refine ⟨rfl, ?_⟩
  simp only [add, AddressMap.add, place_widen, size_widen, hsize, hgrown, resize_succ,
    AddressMap.modify_push_size]
  simp [widen, Node.widen, Node.none, hsize]

/-- One node too many: the row is made as long as zero. -/
theorem nodes_add_full (h : m.nodes.size + 1 = UInt32.size) (a : Address) :
    (m.add a).2.nodes = #[] := by
  have hwrapped : (1 + UInt32.ofNat m.nodes.size).toNat = 0 := by
    unfold UInt32.size at h
    rw [UInt32.toNat_add, UInt32.toNat_ofNat']
    simp
    omega
  simp only [add, hwrapped, resize]
  simp

end NarrowMap

end OfflineTx
