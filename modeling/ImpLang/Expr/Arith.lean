import ImpLang.Number.Basic

namespace ImpLang

inductive ArithOp where
  | add
  | sub
  | mul
  | div
deriving DecidableEq, Repr

namespace ArithOp

def symbol : ArithOp → String
  | add => "+"
  | sub => "-"
  | mul => "*"
  | div => "/"

/-- The exact result; a quotient is cut off towards zero. -/
def exact : ArithOp → Int → Int → Int
  | add, a, b => a + b
  | sub, a, b => a - b
  | mul, a, b => a * b
  | div, a, b => a.tdiv b

end ArithOp

inductive Arith (T : Type) where
  | lit (n : T)
  | var (name : String)
  | binary (op : ArithOp) (left right : Arith T)
deriving DecidableEq, Repr

namespace Arith

variable {T : Type}

def render [Number T] : Arith T → String
  | lit n => Number.render n
  | var x => x
  | binary op l r => "(" ++ op.symbol ++ " " ++ l.render ++ " " ++ r.render ++ ")"

def size : Arith T → Nat
  | lit _ => 1
  | var _ => 1
  | binary _ l r => 1 + l.size + r.size

end Arith

end ImpLang
