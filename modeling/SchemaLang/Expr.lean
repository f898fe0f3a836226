/-!
# Constant expressions

The arithmetic that attribute values are written in.  An expression is folded to one float while a
source is read; no schema holds an expression.
-/

namespace SchemaLang

/-- The operations between two operands. -/
inductive Operator where
  | add
  | subtract
  | multiply
  | divide
  | power
deriving DecidableEq, Repr

/-- What an operation makes of its operands. -/
def Operator.apply : Operator → Float → Float → Float
  | .add, x, y => x + y
  | .subtract, x, y => x - y
  | .multiply, x, y => x * y
  | .divide, x, y => x / y
  | .power, x, y => x.pow y

/-- A constant expression. -/
inductive Expr where
  | number (value : Float)
  | negate (operand : Expr)
  | root (operand : Expr)
  | binary (operator : Operator) (left right : Expr)
deriving Repr

/-- The float an expression stands for; not a number where the arithmetic says so. -/
def Expr.value : Expr → Float
  | .number x => x
  | .negate e => -e.value
  | .root e => e.value.sqrt
  | .binary op left right => op.apply left.value right.value

end SchemaLang
