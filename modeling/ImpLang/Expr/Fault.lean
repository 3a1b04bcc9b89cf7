import ImpLang.Expr.Arith

namespace ImpLang

inductive Fault where
  | divisionByZero
  | overflow (op : ArithOp)
  | output
deriving DecidableEq, Repr

def Fault.message : Fault → String
  | divisionByZero => "division by zero"
  | overflow op => "integer overflow while evaluating `" ++ op.symbol ++ "`"
  | output => "failed to write program output"

def ArithOp.apply {T : Type} [Number T] (op : ArithOp) (a b : T) : Except Fault T :=
  if op = .div ∧ Number.toInt b = 0 then .error .divisionByZero
  else
    match Number.ofInt? (op.exact (Number.toInt a) (Number.toInt b)) with
    | some c => .ok c
    | none => .error (.overflow op)

end ImpLang
