/-!
# Double-precision numbers

Float literals are compared as IEEE 754 doubles. A number is kept as its 64 bits, and the
comparison is stated on the bits: a number that is no number equals nothing, the two zeros
equal each other, and all other numbers are equal when their bits are.
-/

set_option autoImplicit false

namespace ResponseShape

/-- The bits of a double: the sign, eleven bits of exponent, fifty-two of fraction. -/
structure Binary64 where
  bits : UInt64
  deriving DecidableEq

namespace Binary64

/-- The bits without the sign. -/
def magnitude (number : Binary64) : UInt64 :=
  number.bits &&& 0x7FFFFFFFFFFFFFFF

/-- Whether the bits stand for no number: a full exponent over a fraction other than zero. -/
def isNaN (number : Binary64) : Bool :=
  decide (0x7FF0000000000000 < number.magnitude)

/-- Whether the number is one of the two zeros. -/
def isZero (number : Binary64) : Bool :=
  number.magnitude == 0

/-- Equality of the numbers that the bits stand for. -/
def equals (left right : Binary64) : Bool :=
  !left.isNaN && !right.isNaN && (left.bits == right.bits || left.isZero && right.isZero)

end Binary64

end ResponseShape
