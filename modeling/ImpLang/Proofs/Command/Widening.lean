import ImpLang.Proofs.Command.BigStep
import ImpLang.Proofs.Expr.Widening

namespace ImpLang

open Operation

namespace Command

/-- The operations of the expression that a command evaluates when it is first met. -/
def operations {T : Type} [Number T] (s : Store T) : Command T → List Operation
  | assign _ e => e.operations s
  | seq _ _ => []
  | ifThen b _ => b.operations s
  | ifElse b _ _ => b.operations s
  | loop b _ => b.operations s
  | print e => e.operations s

def widen : Command Int64 → Command Int
  | assign x e => .assign x e.widen
  | seq c d => .seq c.widen d.widen
  | ifThen b c => .ifThen b.widen c.widen
  | ifElse b c d => .ifElse b.widen c.widen d.widen
  | loop b c => .loop b.widen c.widen
  | print e => .print e.widen

end Command

def World.widen {W : Type} (w : World Int64 W) : World Int W := ⟨w.store.widen, w.printed⟩

def Outcome.widen {W : Type} (o : Outcome Int64 W) : Outcome Int W := ⟨o.fault, o.world.widen⟩

namespace Machine

variable {T W : Type} [Number T] {sink : Sink W}

def operations (m : Machine T W) : List Operation :=
  match m.calls with
  | (c :: _) :: _ => c.operations m.world.store
  | _ => []

def widen (m : Machine Int64 W) : Machine Int W :=
  ⟨m.calls.map (·.map Command.widen), m.world.widen⟩

variable {m : Machine Int64 W}

end Machine

open Machine

end ImpLang
