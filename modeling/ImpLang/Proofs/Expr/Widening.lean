import Mathlib
import ImpLang.Expr.BooleanEval

namespace ImpLang

structure Operation where
  op : ArithOp
  left : Int
  right : Int
deriving DecidableEq, Repr

namespace Operation

/-- There is an exact result, and it is not an integer of 64 bits. -/
def Overflows (o : Operation) : Prop :=
  ¬ (o.op = .div ∧ o.right = 0) ∧
    ¬ (-2 ^ 63 ≤ o.op.exact o.left o.right ∧ o.op.exact o.left o.right ≤ 2 ^ 63 - 1)

instance (o : Operation) : Decidable o.Overflows := inferInstanceAs (Decidable (_ ∧ _))

def AllFit (os : List Operation) : Prop := ∀ o ∈ os, ¬ o.Overflows

/-- The operation is the first of the row that overflows. -/
def FirstOverflow (os : List Operation) (o : Operation) : Prop :=
  ∃ before after, os = before ++ o :: after ∧ AllFit before ∧ o.Overflows

theorem firstOverflow_iff {os : List Operation} {o : Operation} :
    FirstOverflow os o ↔ os.find? (·.Overflows) = some o := by
  rw [List.find?_eq_some_iff_append]
  constructor
  · rintro ⟨before, after, hos, hfit, ho⟩
    exact ⟨by simpa using ho, before, after, hos, by simpa [AllFit] using hfit⟩
  · rintro ⟨ho, before, after, hos, hfit⟩
    exact ⟨before, after, hos, by simpa [AllFit] using hfit, by simpa using ho⟩

theorem FirstOverflow.unique {os : List Operation} {o q : Operation} (ho : FirstOverflow os o)
    (hq : FirstOverflow os q) : o = q := by
  rw [firstOverflow_iff] at ho hq
  exact Option.some.inj (ho.symm.trans hq)

/-- What is performed once there is a value; nothing after a fault. -/
def following {α : Type} (x : Except Fault α) (next : α → List Operation) : List Operation :=
  match x with
  | .ok a => next a
  | .error _ => []

end Operation

open Operation

namespace Arith

/-- The operations that an evaluation performs, in their order; a fault ends them. -/
def operations {T : Type} [Number T] (s : Store T) : Arith T → List Operation
  | lit _ => []
  | var _ => []
  | binary op l r =>
    l.operations s ++ following (l.eval s) fun a =>
      r.operations s ++ following (r.eval s) fun b =>
        [⟨op, Number.toInt a, Number.toInt b⟩]

def widen : Arith Int64 → Arith Int
  | lit n => .lit n.toInt
  | var x => .var x
  | binary op l r => .binary op l.widen r.widen

end Arith

namespace Boolean

def operations {T : Type} [Number T] (s : Store T) : Boolean T → List Operation
  | compare _ l r => l.operations s ++ following (l.eval s) fun _ => r.operations s
  | not c => c.operations s
  | binary _ l r => l.operations s ++ following (l.eval s) fun _ => r.operations s

def widen : Boolean Int64 → Boolean Int
  | compare rel l r => .compare rel l.widen r.widen
  | not c => .not c.widen
  | binary op l r => .binary op l.widen r.widen

end Boolean

namespace Store

def widen (s : Store Int64) : Store Int := s.map Int64.toInt

end Store

/-- What the two evaluations give: the same up to `f` if all the operations `os` of the unbounded
one fit, and else the overflow of the first one that does not. -/
def Widens {α β : Type} (f : α → β) (os : List Operation) (x : Except Fault α)
    (y : Except Fault β) : Prop :=
  (AllFit os ∧ y = x.map f) ∨ ∃ o, FirstOverflow os o ∧ x = .error (.overflow o.op)

namespace Widens

variable {α β γ δ : Type} {f : α → β} {g : γ → δ} {os : List Operation} {x : Except Fault α}
  {y : Except Fault β}

theorem ok (f : α → β) (a : α) : Widens f [] (.ok a) (.ok (f a)) :=
  .inl ⟨by simp [AllFit], rfl⟩

theorem bind (h : Widens f os x y) {next : β → List Operation} {k : α → Except Fault γ}
    {l : β → Except Fault δ} (hk : ∀ a, Widens g (next (f a)) (k a) (l (f a))) :
    Widens g (os ++ following y next) (x >>= k) (y >>= l) := by
  obtain ⟨hfit, rfl⟩ | ⟨o, ⟨before, after, rfl, hfit, ho⟩, rfl⟩ := h
  · cases x with
    | error e => exact .inl ⟨by simpa [following, Except.map] using hfit, rfl⟩
    | ok a =>
      obtain ⟨hnext, hl⟩ | ⟨o, ⟨before, after, hos, hbefore, ho⟩, hka⟩ := hk a
      · refine .inl ⟨fun o ho => ?_, hl⟩
        exact (List.mem_append.1 ho).elim (hfit o) (hnext o)
      · refine .inr ⟨o, ⟨os ++ before, after, ?_, fun q hq => ?_, ho⟩, hka⟩
        · simp [following, Except.map, hos]
        · exact (List.mem_append.1 hq).elim (hfit q) (hbefore q)
  · exact .inr ⟨o, ⟨before, after ++ following y next, by simp, hfit, ho⟩, rfl⟩

theorem map (h : Widens f os x y) {k : α → γ} {l : β → δ} (hk : ∀ a, l (f a) = g (k a)) :
    Widens g os (k <$> x) (l <$> y) := by
  obtain ⟨hfit, rfl⟩ | ⟨o, ho, rfl⟩ := h
  · refine .inl ⟨hfit, ?_⟩
    cases x with
    | error e => rfl
    | ok a => exact congrArg Except.ok (hk a)
  · exact .inr ⟨o, ho, rfl⟩

end Widens

theorem int64?_eq_none_iff {n : Int} :
    Number.int64? n = none ↔ ¬ (-2 ^ 63 ≤ n ∧ n ≤ 2 ^ 63 - 1) := by
  have hmin := Int64.toInt_minValue
  have hmax := Int64.toInt_maxValue
  unfold Number.int64?
  split <;> simp <;> omega

namespace Fault

variable {α β : Type} {f : Fault} {x : Except Fault α}

end Fault

end ImpLang
