import ImpLang.Expr.Arith

namespace ImpLang

inductive Relation where
  | lt
  | le
  | gt
  | ge
  | eq
  | ne
deriving DecidableEq, Repr

namespace Relation

def symbol : Relation → String
  | lt => "<"
  | le => "<="
  | gt => ">"
  | ge => ">="
  | eq => "="
  | ne => "!="

def holds : Relation → Int → Int → Bool
  | lt, a, b => decide (a < b)
  | le, a, b => decide (a ≤ b)
  | gt, a, b => decide (b < a)
  | ge, a, b => decide (b ≤ a)
  | eq, a, b => decide (a = b)
  | ne, a, b => decide (a ≠ b)

end Relation

inductive Connective where
  | and
  | or
deriving DecidableEq, Repr

namespace Connective

def symbol : Connective → String
  | and => "and"
  | or => "or"

def combine : Connective → Bool → Bool → Bool
  | and, a, b => a && b
  | or, a, b => a || b

end Connective

inductive Boolean (T : Type) where
  | compare (rel : Relation) (left right : Arith T)
  | not (inner : Boolean T)
  | binary (op : Connective) (left right : Boolean T)
deriving DecidableEq, Repr

namespace Boolean

variable {T : Type}

def render [Number T] : Boolean T → String
  | compare rel l r => "(" ++ rel.symbol ++ " " ++ l.render ++ " " ++ r.render ++ ")"
  | not b => "(not " ++ b.render ++ ")"
  | binary op l r => "(" ++ op.symbol ++ " " ++ l.render ++ " " ++ r.render ++ ")"

def size : Boolean T → Nat
  | compare _ l r => 1 + l.size + r.size
  | not b => 1 + b.size
  | binary _ l r => 1 + l.size + r.size

end Boolean

end ImpLang
