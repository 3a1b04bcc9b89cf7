namespace ImpLang

/-- One call of a named parser: where it started, and where its match ended if it matched. -/
structure Call where
  name : String
  start : Nat
  stop : Option Nat
deriving DecidableEq, Repr

/-- A value with the calls recorded on the way to it, or nothing if the computation does not end. -/
def Trace (α : Type u) : Type u := Option (List Call × α)

namespace Trace

variable {α : Type u} {β : Type v}

def pure (a : α) : Trace α := some ([], a)

def diverge : Trace α := none

def record (c : Call) (a : α) : Trace α := some ([c], a)

def bind (x : Trace α) (f : α → Trace β) : Trace β :=
  match x with
  | none => none
  | some (calls, a) =>
    match f a with
    | none => none
    | some (more, b) => some (calls ++ more, b)

instance : Monad Trace where
  pure := pure
  bind := bind

theorem bind_assoc {γ : Type w} (x : Trace α) (f : α → Trace β) (g : β → Trace γ) :
    bind (bind x f) g = bind x fun a => bind (f a) g := by
  cases x with
  | none => rfl
  | some r =>
    simp only [bind]
    cases f r.2 with
    | none => rfl
    | some s =>
      simp only
      cases g s.2 with
      | none => rfl
      | some t => exact congrArg some (congrArg (·, t.2) (List.append_assoc ..))

theorem pure_bind (a : α) (f : α → Trace β) : bind (pure a) f = f a := by
  simp only [bind, pure]
  cases f a <;> rfl

theorem bind_pure (x : Trace α) : bind x pure = x := by
  match x with
  | none => rfl
  | some (calls, a) => exact congrArg some (congrArg (·, a) (List.append_nil calls))

instance : LawfulMonad Trace := .mk' _ bind_pure pure_bind bind_assoc

def value? (x : Trace α) : Option α := Option.map Prod.snd x

end Trace

end ImpLang
