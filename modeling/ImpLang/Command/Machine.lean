import ImpLang.Command.Basic
import ImpLang.Expr.BooleanEval

namespace ImpLang

/-- What becomes of an output of type `W` when a line is written to it, also if it refuses the
line. -/
abbrev Sink (W : Type) : Type := W → String → Except W W

abbrev Lines : Type := Array String

namespace Lines

def hasRoom (limit : Option Nat) (lines : Lines) : Bool :=
  match limit with
  | none => true
  | some n => decide (lines.size < n)

/-- Takes lines up to a limit, and nothing of a line that is refused. -/
def sink (limit : Option Nat) : Sink Lines := fun lines line =>
  if lines.hasRoom limit then .ok (lines.push line) else .error lines

def text (lines : Lines) : String := lines.foldl (fun text line => text ++ line ++ "\n") ""

end Lines

structure World (T : Type) (W : Type := Lines) where
  store : Store T
  printed : W

structure Outcome (T : Type) (W : Type := Lines) where
  fault : Option Fault
  world : World T W

namespace World

variable {T W : Type}

def ofStore (s : Store T) : World T := ⟨s, #[]⟩

def output (w : World T) : String := w.printed.text

/-- A value that the run goes on with; a fault ends it in this world. -/
def demand {α : Type} (w : World T W) (x : Except Fault α) : Except (Outcome T W) α :=
  x.mapError fun f => ⟨some f, w⟩

end World

/-- A run in progress: the pending commands of each call of the evaluator, the innermost call
first. A loop stays in front of its call while a further call runs its body. -/
structure Machine (T : Type) (W : Type := Lines) where
  calls : List (List (Command T))
  world : World T W

namespace Machine

variable {T W : Type} [Number T]

/-- The state after the next step, or the outcome if the run is at its end. -/
def step (sink : Sink W) : Machine T W → Except (Outcome T W) (Machine T W)
  | ⟨[], w⟩ => throw ⟨none, w⟩
  | ⟨[] :: calls, w⟩ => return ⟨calls, w⟩
  | ⟨(.assign x e :: rest) :: calls, w⟩ => do
    let v ← w.demand (e.evaluate w.store)
    return ⟨rest :: calls, { w with store := w.store.insert x v }⟩
  | ⟨(.seq c d :: rest) :: calls, w⟩ => return ⟨(c :: d :: rest) :: calls, w⟩
  | ⟨(.ifThen b c :: rest) :: calls, w⟩ => do
    if ← w.demand (b.evaluate w.store) then return ⟨(c :: rest) :: calls, w⟩
    else return ⟨rest :: calls, w⟩
  | ⟨(.ifElse b c d :: rest) :: calls, w⟩ => do
    if ← w.demand (b.evaluate w.store) then return ⟨(c :: rest) :: calls, w⟩
    else return ⟨(d :: rest) :: calls, w⟩
  | ⟨(.loop b c :: rest) :: calls, w⟩ => do
    if ← w.demand (b.evaluate w.store) then return ⟨[c] :: (.loop b c :: rest) :: calls, w⟩
    else return ⟨rest :: calls, w⟩
  | ⟨(.print e :: rest) :: calls, w⟩ => do
    let v ← w.demand (e.evaluate w.store)
    match sink w.printed (Number.render v) with
    | .ok printed => return ⟨rest :: calls, { w with printed := printed }⟩
    | .error printed => throw ⟨some .output, { w with printed := printed }⟩

section

variable {sink : Sink W} {rest : List (Command T)} {calls : List (List (Command T))}
  {w : World T W} {b : Boolean T} {c d : Command T} {e : Arith T} {x : String}

theorem step_return : step sink ⟨[] :: calls, w⟩ = .ok ⟨calls, w⟩ := rfl

theorem step_assign : step sink ⟨(.assign x e :: rest) :: calls, w⟩ =
    match e.eval w.store with
    | .ok v => .ok ⟨rest :: calls, { w with store := w.store.insert x v }⟩
    | .error f => .error ⟨some f, w⟩ := by
  simp only [step, Arith.evaluate_eq_eval]
  cases e.eval w.store <;> rfl

theorem step_seq : step sink ⟨(.seq c d :: rest) :: calls, w⟩ =
    .ok ⟨(c :: d :: rest) :: calls, w⟩ := rfl

theorem step_ifThen : step sink ⟨(.ifThen b c :: rest) :: calls, w⟩ =
    match b.eval w.store with
    | .ok true => .ok ⟨(c :: rest) :: calls, w⟩
    | .ok false => .ok ⟨rest :: calls, w⟩
    | .error f => .error ⟨some f, w⟩ := by
  simp only [step, Boolean.evaluate_eq_eval]
  rcases b.eval w.store with f | (_ | _) <;> rfl

theorem step_ifElse : step sink ⟨(.ifElse b c d :: rest) :: calls, w⟩ =
    match b.eval w.store with
    | .ok true => .ok ⟨(c :: rest) :: calls, w⟩
    | .ok false => .ok ⟨(d :: rest) :: calls, w⟩
    | .error f => .error ⟨some f, w⟩ := by
  simp only [step, Boolean.evaluate_eq_eval]
  rcases b.eval w.store with f | (_ | _) <;> rfl

theorem step_loop : step sink ⟨(.loop b c :: rest) :: calls, w⟩ =
    match b.eval w.store with
    | .ok true => .ok ⟨[c] :: (.loop b c :: rest) :: calls, w⟩
    | .ok false => .ok ⟨rest :: calls, w⟩
    | .error f => .error ⟨some f, w⟩ := by
  simp only [step, Boolean.evaluate_eq_eval]
  rcases b.eval w.store with f | (_ | _) <;> rfl

theorem step_print : step sink ⟨(.print e :: rest) :: calls, w⟩ =
    match e.eval w.store with
    | .ok v =>
      match sink w.printed (Number.render v) with
      | .ok printed => .ok ⟨rest :: calls, { w with printed := printed }⟩
      | .error printed => .error ⟨some .output, { w with printed := printed }⟩
    | .error f => .error ⟨some f, w⟩ := by
  simp only [step, Arith.evaluate_eq_eval]
  cases e.eval w.store <;> rfl

end

/-- The outcome of a run; nothing if it takes more than `steps` steps. -/
def run (sink : Sink W) : (steps : Nat) → Machine T W → Option (Outcome T W)
  | 0, _ => none
  | steps + 1, m =>
    match m.step sink with
    | .error o => some o
    | .ok next => run sink steps next

end Machine

namespace Command

variable {T W : Type} [Number T]

def runIn (sink : Sink W) (steps : Nat) (c : Command T) (w : World T W) : Option (Outcome T W) :=
  Machine.run sink steps ⟨[[c]], w⟩

def run (limit : Option Nat) (steps : Nat) (c : Command T) (s : Store T) : Option (Outcome T) :=
  c.runIn (Lines.sink limit) steps (.ofStore s)

/-- More steps than a computer takes in a century. -/
def practicalSteps : Nat := 1 <<< 62

end Command

end ImpLang
