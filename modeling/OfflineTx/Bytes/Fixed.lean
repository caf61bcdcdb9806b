import OfflineTx.Bytes

/-!
# Byte strings of a fixed length

Addresses, hashes and signatures are byte strings whose length is part of their type.
-/

namespace OfflineTx

structure FixedBytes (n : Nat) where
  bytes : Bytes
  length_eq : bytes.length = n

abbrev Address := FixedBytes 32

abbrev Hash := FixedBytes 32

abbrev Signature := FixedBytes 64

namespace FixedBytes

variable {n : Nat}

@[ext] theorem ext {a b : FixedBytes n} (h : a.bytes = b.bytes) : a = b := by
  cases a; cases b; cases h; rfl

theorem bytes_inj {a b : FixedBytes n} : a.bytes = b.bytes ↔ a = b :=
  ⟨ext, fun h => h ▸ rfl⟩

instance : DecidableEq (FixedBytes n) := fun a b =>
  decidable_of_iff (Bytes.same a.bytes b.bytes = true) (Bytes.same_iff.trans bytes_inj)

@[simp] theorem length_bytes (a : FixedBytes n) : a.bytes.length = n := a.length_eq

def ofBytes? (n : Nat) (bs : Bytes) : Option (FixedBytes n) :=
  if h : bs.length = n then some ⟨bs, h⟩ else none

theorem ofBytes?_bytes (a : FixedBytes n) : ofBytes? n a.bytes = some a := by
  simp [ofBytes?]

theorem ofBytes?_eq_some_iff {bs : Bytes} {a : FixedBytes n} :
    ofBytes? n bs = some a ↔ bs = a.bytes := by
  constructor
  · intro h
    unfold ofBytes? at h
    split at h
    · cases h; rfl
    · cases h
  · rintro rfl
    exact ofBytes?_bytes a

/-- The first `n` bytes, filled up with zeros at the end. -/
def padded (n : Nat) (bs : Bytes) : FixedBytes n where
  bytes := (bs ++ List.replicate n 0).take n
  length_eq := by simp

def zero (n : Nat) : FixedBytes n where
  bytes := List.replicate n 0
  length_eq := List.length_replicate

def isZero (a : FixedBytes n) : Bool :=
  a.bytes.all (· == 0)

theorem isZero_iff {a : FixedBytes n} : a.isZero = true ↔ a = zero n := by
  constructor
  · intro h
    ext1
    apply List.eq_replicate_iff.2
    refine ⟨a.length_eq, fun b hb => ?_⟩
    simpa using List.all_eq_true.1 h b hb
  · rintro rfl
    simp [isZero, zero]

/-- The first eight bytes as a number, lowest byte first. -/
def hashCode (a : FixedBytes n) : UInt64 :=
  UInt64.ofNat (Bytes.toNatLE (a.bytes.take 8))

/-- Byte-wise order, first difference decides. -/
instance : LT (FixedBytes n) := ⟨fun a b => a.bytes < b.bytes⟩

instance (a b : FixedBytes n) : Decidable (a < b) :=
  inferInstanceAs (Decidable (a.bytes < b.bytes))

instance : Inhabited (FixedBytes n) := ⟨zero n⟩

end FixedBytes

end OfflineTx
