import Mathlib.Data.List.Lex
import Mathlib.Data.UInt

/-!
# Byte strings in lexicographic order

Bytes are ordered as unsigned numbers and strings lexicographically. `memcmp` looks at
the bytes that both strings have; where it finds no difference, the shorter string comes
first.
-/

namespace Bolt.Lib.ByteStrings

/-- Bytes as unsigned numbers. -/
scoped instance linearOrderByte : LinearOrder UInt8 where
  le_refl _ := UInt8.le_refl _
  le_trans _ _ _ := UInt8.le_trans
  lt_iff_le_not_ge a b := by
    rw [UInt8.lt_iff_toNat_lt, UInt8.le_iff_toNat_le, UInt8.le_iff_toNat_le]
    omega
  le_antisymm _ _ := UInt8.le_antisymm
  le_total _ _ := UInt8.le_total _ _
  toDecidableLE := inferInstance

/-- The first difference among the bytes that both strings have. -/
def memcmp : List UInt8 → List UInt8 → Ordering
  | a :: as, b :: bs => if a < b then .lt else if b < a then .gt else memcmp as bs
  | _, _ => .eq

end Bolt.Lib.ByteStrings
