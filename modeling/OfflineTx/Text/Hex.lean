import OfflineTx.Bytes

/-!
# Hexadecimal text

Each byte is two lower-case digits, high half first.
-/

namespace OfflineTx.Hex

/-- The digit of a value below sixteen. -/
def digit (v : UInt8) : UInt8 :=
  if v < 10 then 48 + v else 87 + v

def encode (bs : Bytes) : Bytes :=
  bs.flatMap fun (b : UInt8) => [digit (b >>> 4), digit (b &&& 15)]

theorem length_encode (bs : Bytes) : (encode bs).length = 2 * bs.length := by
  induction bs with
  | nil => rfl
  | cons b bs ih =>
    simp only [encode, List.flatMap_cons, List.length_append, List.length_cons] at ih ⊢
    simp only [List.length_nil]
    omega

end OfflineTx.Hex
