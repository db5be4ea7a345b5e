import Mathlib.Data.Nat.Digits.Lemmas
import Opstream.Proofs.LayoutRoundTrip

namespace Opstream

namespace BigEndian

/-- The digits of a number in base 256, the most significant one first, behind zeros up to a
width. -/
def padded (width n : Nat) : List UInt8 :=
  ((Nat.digits 256 n).reverse.map UInt8.ofNat).leftpad width 0

end BigEndian

namespace Operand

end Operand

namespace Layout

open Operand (slotStart)

variable {layout : Layout} {operands : List Operand}

end Layout

namespace Instruction

end Instruction

end Opstream
