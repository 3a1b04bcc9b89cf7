import ImpLang.Expr.Fault
import ImpLang.Store.Basic

namespace ImpLang.Arith

variable {T : Type} [Number T]

def eval (s : Store T) : Arith T → Except Fault T
  | lit n => .ok n
  | var x => .ok (s.lookup x)
  | binary op l r => do
    let a ← l.eval s
    let b ← r.eval s
    op.apply a b

/-- What is left to do: push the value of an expression, or join the two topmost values. -/
inductive Task (T : Type) where
  | eval (e : Arith T)
  | apply (op : ArithOp)

def Task.weight : Task T → Nat
  | eval e => 2 * e.size
  | apply _ => 1

/-- Does the tasks in turn; nothing if values are missing on the stack. -/
def work (s : Store T) : List (Task T) → List T → Option (Except Fault T)
  | [], [] => none
  | [], v :: _ => some (.ok v)
  | .eval (lit n) :: tasks, values => work s tasks (n :: values)
  | .eval (var x) :: tasks, values => work s tasks (s.lookup x :: values)
  | .eval (binary op l r) :: tasks, values => work s (.eval l :: .eval r :: .apply op :: tasks) values
  | .apply op :: tasks, b :: a :: values =>
    match op.apply a b with
    | .ok v => work s tasks (v :: values)
    | .error f => some (.error f)
  | .apply _ :: _, _ => none
termination_by tasks => tasks.foldr (fun task n => task.weight + n) 0
decreasing_by all_goals simp +arith [Task.weight, size]

/-- Values stay on the stack below those that an expression needs. -/
theorem work_eval (s : Store T) (e : Arith T) (tasks : List (Task T)) (values : List T) :
    work s (.eval e :: tasks) values =
      match e.eval s with
      | .ok v => work s tasks (v :: values)
      | .error f => some (.error f) := by
  induction e generalizing tasks values with
  | lit n => simp [work, eval]
  | var x => simp [work, eval]
  | binary op l r ihl ihr =>
    rw [work, ihl, eval]
    cases l.eval s with
    | error f => rfl
    | ok a =>
      simp only [ihr]
      cases r.eval s with
      | error f => rfl
      | ok b => simp only [work]; rfl

theorem work_singleton (s : Store T) (e : Arith T) : work s [.eval e] [] = some (e.eval s) := by
  rw [work_eval]
  cases e.eval s <;> simp [work]

def evaluate (e : Arith T) (s : Store T) : Except Fault T :=
  (work s [.eval e] []).get (by rw [work_singleton]; rfl)

@[simp] theorem evaluate_eq_eval (e : Arith T) (s : Store T) : e.evaluate s = e.eval s := by
  simp [evaluate, work_singleton]

end ImpLang.Arith
