import ImpLang.Expr.ArithEval
import ImpLang.Expr.Boolean

namespace ImpLang.Boolean

variable {T : Type} [Number T]

def eval (s : Store T) : Boolean T → Except Fault Bool
  | compare rel l r => do
    let a ← l.eval s
    let b ← r.eval s
    return rel.holds (Number.toInt a) (Number.toInt b)
  | not c => do
    let a ← c.eval s
    return !a
  | binary op l r => do
    let a ← l.eval s
    let b ← r.eval s
    return op.combine a b

inductive Task (T : Type) where
  | eval (b : Boolean T)
  | negate
  | join (op : Connective)

def Task.weight : Task T → Nat
  | eval b => 2 * b.size
  | negate => 1
  | join _ => 1

def compared (s : Store T) (rel : Relation) (l r : Arith T) : Except Fault Bool := do
  let a ← l.evaluate s
  let b ← r.evaluate s
  return rel.holds (Number.toInt a) (Number.toInt b)

def work (s : Store T) : List (Task T) → List Bool → Option (Except Fault Bool)
  | [], [] => none
  | [], v :: _ => some (.ok v)
  | .eval (compare rel l r) :: tasks, values =>
    match compared s rel l r with
    | .ok v => work s tasks (v :: values)
    | .error f => some (.error f)
  | .eval (not c) :: tasks, values => work s (.eval c :: .negate :: tasks) values
  | .eval (binary op l r) :: tasks, values => work s (.eval l :: .eval r :: .join op :: tasks) values
  | .negate :: tasks, v :: values => work s tasks ((!v) :: values)
  | .negate :: _, [] => none
  | .join op :: tasks, b :: a :: values => work s tasks (op.combine a b :: values)
  | .join _ :: _, _ => none
termination_by tasks => tasks.foldr (fun task n => task.weight + n) 0
decreasing_by all_goals simp +arith [Task.weight, size]

theorem work_eval (s : Store T) (c : Boolean T) (tasks : List (Task T)) (values : List Bool) :
    work s (.eval c :: tasks) values =
      match c.eval s with
      | .ok v => work s tasks (v :: values)
      | .error f => some (.error f) := by
  induction c generalizing tasks values with
  | compare rel l r => rw [work, compared, eval]; simp only [Arith.evaluate_eq_eval]
  | not c ih =>
    rw [work, ih, eval]
    cases c.eval s with
    | error f => rfl
    | ok a => simp only [work]; rfl
  | binary op l r ihl ihr =>
    rw [work, ihl, eval]
    cases l.eval s with
    | error f => rfl
    | ok a =>
      simp only [ihr]
      cases r.eval s with
      | error f => rfl
      | ok b => simp only [work]; rfl

theorem work_singleton (s : Store T) (c : Boolean T) : work s [.eval c] [] = some (c.eval s) := by
  rw [work_eval]
  cases c.eval s <;> simp [work]

def evaluate (c : Boolean T) (s : Store T) : Except Fault Bool :=
  (work s [.eval c] []).get (by rw [work_singleton]; rfl)

@[simp] theorem evaluate_eq_eval (c : Boolean T) (s : Store T) : c.evaluate s = c.eval s := by
  simp [evaluate, work_singleton]

end ImpLang.Boolean
