/-!
# Byte strings

A byte string is a list of bytes. A number is written into bytes lowest byte first or highest
byte first, and read back the same way.
-/

namespace OfflineTx

abbrev Bytes := List UInt8

/-- The bytes of a text whose characters are all below 256. -/
def ascii (s : String) : Bytes :=
  s.toList.map fun c => c.toNat.toUInt8

namespace Bytes

/-- Whether there are at least `n` bytes. Looks at no more than `n` of them. -/
def fits : Nat → Bytes → Bool
  | 0, _ => true
  | _ + 1, [] => false
  | n + 1, _ :: bs => fits n bs

theorem fits_iff : ∀ {n : Nat} {bs : Bytes}, fits n bs = true ↔ n ≤ bs.length
  | 0, bs => by simp [fits]
  | n + 1, [] => by simp [fits]
  | n + 1, b :: bs => by simp [fits, @fits_iff n bs]

theorem length_take_of_fits {n : Nat} {bs : Bytes} (h : fits n bs = true) :
    (bs.take n).length = n := by
  rw [List.length_take, Nat.min_eq_left (fits_iff.1 h)]

/-- Whether two byte strings are equal. Stops at the first difference. -/
def same : Bytes → Bytes → Bool
  | [], [] => true
  | a :: as, b :: bs => a == b && same as bs
  | _, _ => false

theorem same_iff : ∀ {as bs : Bytes}, same as bs = true ↔ as = bs
  | [], [] => by simp [same]
  | [], _ :: _ => by simp [same]
  | _ :: _, [] => by simp [same]
  | a :: as, b :: bs => by simp [same, @same_iff as bs]

/-- What stands before the first zero byte. -/
def upToZero (bs : Bytes) : Bytes :=
  bs.takeWhile (· != 0)

/-- Two texts agree when they are equally long and equal up to their first zero byte. -/
def agree (a b : Bytes) : Bool :=
  a.length == b.length && upToZero a == upToZero b

/-- The number whose base-256 digits, lowest first, are the bytes. -/
def toNatLE : Bytes → Nat
  | [] => 0
  | b :: bs => b.toNat + 256 * toNatLE bs

/-- The number whose base-256 digits, highest first, are the bytes. -/
def toNatBE (bs : Bytes) : Nat :=
  bs.foldl (fun n b => 256 * n + b.toNat) 0

/-- The `k` lowest base-256 digits of `n`, lowest first. -/
def ofNatLE : Nat → Nat → Bytes
  | 0, _ => []
  | k + 1, n => n.toUInt8 :: ofNatLE k (n / 256)

/-- The `k` lowest base-256 digits of `n`, highest first. -/
def ofNatBE (k n : Nat) : Bytes :=
  (ofNatLE k n).reverse

@[simp] theorem length_ofNatLE : ∀ k n : Nat, (ofNatLE k n).length = k
  | 0, _ => rfl
  | k + 1, n => by simp [ofNatLE, length_ofNatLE k]

@[simp] theorem length_ofNatBE (k n : Nat) : (ofNatBE k n).length = k := by
  simp [ofNatBE]

end Bytes

end OfflineTx
