import OfflineTx.Bytes.Fixed

/-!
# Maps from addresses to numbers

Addresses are spread over buckets, and the nodes of a bucket are chained from the newest to the
oldest. Nodes are kept in the order in which they were added and are named by their place, from
one on; place zero ends a chain. A slot holds the place of a node: the head of a bucket, or the
link behind another node.
-/

namespace OfflineTx

namespace AddressMap

structure Node where
  next : Nat
  address : Address
  value : Nat
deriving DecidableEq

/-- What stands at place zero. -/
def Node.none : Node where
  next := 0
  address := .zero 32
  value := 0

inductive Slot
  | head (bucket : Nat)
  | behind (place : Nat)
deriving DecidableEq

end AddressMap

structure AddressMap (width : Nat) where
  heads : Array Nat
  nodes : Array AddressMap.Node

namespace AddressMap

variable {width : Nat}

def empty : AddressMap width where
  heads := .replicate width 0
  nodes := #[.none]

instance : Inhabited (AddressMap width) := ⟨empty⟩

/-- Forgets all nodes. -/
def clear (m : AddressMap width) : AddressMap width where
  heads := .replicate width 0
  nodes := m.nodes.take 1

/-- The number of additions since the map was last cleared. -/
def size (m : AddressMap width) : Nat :=
  m.nodes.size - 1

/-- The bucket of an address: the low 32 bits of its hash code, modulo the number of buckets. -/
def bucket (width : Nat) (a : Address) : Nat :=
  a.hashCode.toUInt32.toNat % width

def node (m : AddressMap width) (place : Nat) : Node :=
  m.nodes.getD place .none

/-- The place that a slot holds. -/
def place (m : AddressMap width) : Slot → Nat
  | .head b => m.heads.getD b 0
  | .behind i => (m.node i).next

/-- Follows a chain for at most so many nodes, and gives the slot of the first one with the
address. -/
def walk (m : AddressMap width) (a : Address) : Nat → Slot → Option Slot
  | 0, _ => none
  | n + 1, s =>
    let i := m.place s
    if i = 0 then none
    else if (m.node i).address = a then some s
    else walk m a n (.behind i)

/-- No chain is longer than there are nodes. -/
def find? (m : AddressMap width) (a : Address) : Option Slot :=
  m.walk a m.nodes.size (.head (bucket width a))

/-- Puts a new node with value zero at the head of its bucket, whether the address is there
already or not. -/
def add (m : AddressMap width) (a : Address) : Slot × AddressMap width :=
  let b := bucket width a
  let node : Node := { next := m.place (.head b), address := a, value := 0 }
  (.head b, { heads := m.heads.setIfInBounds b m.nodes.size, nodes := m.nodes.push node })

def value (m : AddressMap width) (s : Slot) : Nat :=
  (m.node (m.place s)).value

/-- Writes the value of the node whose place the slot holds. -/
def write (m : AddressMap width) (s : Slot) (value : Nat) : AddressMap width :=
  { m with nodes := m.nodes.modify (m.place s) fun node => { node with value := value } }

def lookup? (m : AddressMap width) (a : Address) : Option Nat :=
  (m.find? a).map m.value

def insert (m : AddressMap width) (a : Address) (value : Nat) : AddressMap width :=
  let (slot, m) := m.add a
  m.write slot value

end AddressMap

end OfflineTx
