import ImpLang.Expr.Boolean

namespace ImpLang

inductive Command (T : Type) where
  | assign (name : String) (value : Arith T)
  | seq (first second : Command T)
  | ifThen (condition : Boolean T) (body : Command T)
  | ifElse (condition : Boolean T) (body other : Command T)
  | loop (condition : Boolean T) (body : Command T)
  | print (value : Arith T)
deriving DecidableEq, Repr

namespace Command

variable {T : Type}

/-- Moves every line but the first one in by a tab. -/
def indent (s : String) : String :=
  String.ofList (s.toList.flatMap fun c => if c = '\n' then ['\n', '\t'] else [c])

def render [Number T] : Command T → String
  | assign x e => "(assign " ++ x ++ " " ++ e.render ++ ")"
  | seq c d => c.render ++ "\n" ++ d.render
  | ifThen b c => "(if " ++ b.render ++ "\n\t(" ++ indent c.render ++ "))"
  | ifElse b c d =>
    "(if " ++ b.render ++ "\n\t(" ++ indent c.render ++ ")\n\t(" ++ indent d.render ++ "))"
  | loop b c => "(loop (while " ++ b.render ++ ")\n\t" ++ indent c.render ++ ")"
  | print e => "(print " ++ e.render ++ ")"

/-- The number of nodes; an assigned name counts as one. -/
def size : Command T → Nat
  | assign _ e => 2 + e.size
  | seq c d => 1 + c.size + d.size
  | ifThen b c => 1 + b.size + c.size
  | ifElse b c d => 1 + b.size + c.size + d.size
  | loop b c => 1 + b.size + c.size
  | print e => 1 + e.size

end Command

end ImpLang
