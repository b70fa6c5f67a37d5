import StackLang.Instruction.Basic

/-!
# Arithmetic on stack values

Stack values are 32-bit words with a sign, and sums, differences and products wrap. Quotients
are truncated toward zero and remainders take the sign of the dividend; the one quotient that
has no 32-bit value, of the least value by -1, wraps to the least value.
-/

set_option autoImplicit false

namespace StackLang

namespace BinaryOp

/-- The result of an operation. There is none for a divisor of zero. -/
def eval? (op : BinaryOp) (a b : Int32) : Option Int32 :=
  match op with
  | .add => some (a + b)
  | .sub => some (a - b)
  | .mul => some (a * b)
  | .div => if b = 0 then none else some (a / b)
  | .mod => if b = 0 then none else some (a % b)

/-- Sums, differences and products wrap. -/
example :
    add.eval? 2147483647 1 = some (-2147483648) ∧
    sub.eval? (-2147483648) 1 = some 2147483647 ∧
    mul.eval? 2147483647 2 = some (-2) := by decide

/-- Quotients are truncated, and remainders have the sign of the dividend. -/
example :
    div.eval? (-7) 2 = some (-3) ∧ mod.eval? (-7) 2 = some (-1) ∧
    div.eval? 7 (-2) = some (-3) ∧ mod.eval? 7 (-2) = some 1 := by decide

/-- The quotient of the least value by -1 wraps, and its remainder is zero. -/
example :
    div.eval? (-2147483648) (-1) = some (-2147483648) ∧
    mod.eval? (-2147483648) (-1) = some 0 := by decide

end BinaryOp

namespace UnaryOp

/-- Whether a value passes the test. -/
def holds (op : UnaryOp) (v : Int32) : Bool :=
  match op with
  | .pos => 0 ≤ v
  | .not => v = 0

/-- The answer of a test as a value. -/
def eval (op : UnaryOp) (v : Int32) : Int32 := if op.holds v then 1 else 0

end UnaryOp

end StackLang
