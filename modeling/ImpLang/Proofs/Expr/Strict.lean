import ImpLang.Expr.BooleanEval
import ImpLang.Proofs.Expr.Exact

namespace ImpLang

variable {T : Type} [Number T] {s : Store T}

namespace Fault

variable {α β : Type} {x : Except Fault α}

def of? : Except Fault α → Option Fault
  | .ok _ => none
  | .error f => some f

theorem of?_eq_none_iff : of? x = none ↔ ∃ a, x = .ok a := by
  cases x <;> simp [of?]

theorem of?_eq_some_iff {f : Fault} : of? x = some f ↔ x = .error f := by
  cases x <;> simp [of?]

theorem of?_bind {k : α → Except Fault β} {later : Option Fault} (hk : ∀ a, of? (k a) = later) :
    of? (x >>= k) = (of? x).or later := by
  cases x with
  | error f => rfl
  | ok a => exact hk a

theorem of?_map (k : α → β) : of? (x >>= fun a => pure (k a)) = of? x := by
  cases x <;> rfl

theorem exists_of_bind_eq_ok {k : α → Except Fault β} {b : β} (h : x >>= k = .ok b) :
    ∃ a, x = .ok a ∧ k a = .ok b := by
  cases x with
  | error f => cases h
  | ok a => exact ⟨a, rfl, h⟩

end Fault

open Fault

theorem Arith.of?_eval (e : Arith T) :
    of? (e.eval s) = e.postorder.findSome? fun d => of? (d.eval s) := by
  induction e with
  | lit n => rfl
  | var x => rfl
  | binary op l r ihl ihr =>
    rw [postorder, List.findSome?_append, List.findSome?_append, ← ihl, ← ihr,
      List.findSome?_singleton]
    cases hl : l.eval s with
    | error f => simp only [eval, hl]; rfl
    | ok a =>
      cases hr : r.eval s with
      | error f => simp only [eval, hl, hr]; rfl
      | ok b => rfl

namespace Boolean

/-- All arithmetic subexpressions, in the order in which they are evaluated. -/
def arithmetic : Boolean T → List (Arith T)
  | compare _ l r => l.postorder ++ r.postorder
  | not c => c.arithmetic
  | binary _ l r => l.arithmetic ++ r.arithmetic

/-- Whether the expression holds, by the exact values of what it compares. -/
def truth (s : Store T) : Boolean T → Bool
  | compare .lt l r => l.exact s < r.exact s
  | compare .le l r => l.exact s ≤ r.exact s
  | compare .gt l r => l.exact s > r.exact s
  | compare .ge l r => l.exact s ≥ r.exact s
  | compare .eq l r => l.exact s = r.exact s
  | compare .ne l r => l.exact s ≠ r.exact s
  | not c => !c.truth s
  | binary .and l r => l.truth s && r.truth s
  | binary .or l r => l.truth s || r.truth s

theorem truth_compare (s : Store T) (rel : Relation) (l r : Arith T) :
    (compare rel l r).truth s = rel.holds (l.exact s) (r.exact s) := by
  cases rel <;> rfl

theorem truth_binary (s : Store T) (op : Connective) (l r : Boolean T) :
    (binary op l r).truth s = op.combine (l.truth s) (r.truth s) := by
  cases op <;> rfl

theorem of?_eval (c : Boolean T) :
    of? (c.eval s) = c.arithmetic.findSome? fun e => of? (e.eval s) := by
  induction c with
  | compare rel l r =>
    rw [arithmetic, List.findSome?_append, ← l.of?_eval, ← r.of?_eval]
    exact of?_bind fun a => of?_map _
  | not c ih =>
    rw [arithmetic, ← ih]
    exact of?_map _
  | binary op l r ihl ihr =>
    rw [arithmetic, List.findSome?_append, ← ihl, ← ihr]
    exact of?_bind fun a => of?_map _

theorem eq_truth_of_eval {c : Boolean T} {v : Bool} (h : c.eval s = .ok v) : v = c.truth s := by
  induction c generalizing v with
  | compare rel l r =>
    obtain ⟨a, hl, h⟩ := exists_of_bind_eq_ok h
    obtain ⟨b, hr, h⟩ := exists_of_bind_eq_ok h
    cases h
    rw [truth_compare, ← Arith.toInt_of_eval hl, ← Arith.toInt_of_eval hr]
  | not c ih =>
    obtain ⟨a, hc, h⟩ := exists_of_bind_eq_ok h
    cases h
    rw [truth, ← ih hc]
  | binary op l r ihl ihr =>
    obtain ⟨a, hl, h⟩ := exists_of_bind_eq_ok h
    obtain ⟨b, hr, h⟩ := exists_of_bind_eq_ok h
    cases h
    rw [truth_binary, ← ihl hl, ← ihr hr]

theorem eval_eq_ok_iff {c : Boolean T} {v : Bool} :
    c.eval s = .ok v ↔ (∀ e ∈ c.arithmetic, ∃ a, e.eval s = .ok a) ∧ v = c.truth s := by
  have hfaults : (∀ e ∈ c.arithmetic, ∃ a, e.eval s = .ok a) ↔ ∃ w, c.eval s = .ok w := by
    simp only [← of?_eq_none_iff]
    rw [of?_eval, List.findSome?_eq_none_iff]
  rw [hfaults]
  constructor
  · intro h
    exact ⟨⟨v, h⟩, eq_truth_of_eval h⟩
  · rintro ⟨⟨w, hw⟩, rfl⟩
    rw [← eq_truth_of_eval hw]
    exact hw

theorem eval_eq_error_iff {c : Boolean T} {f : Fault} :
    c.eval s = .error f ↔
      ∃ before e after, c.arithmetic = before ++ e :: after ∧
        (∀ d ∈ before, ∃ a, d.eval s = .ok a) ∧ e.eval s = .error f := by
  simp only [← of?_eq_none_iff, ← of?_eq_some_iff]
  rw [of?_eval, List.findSome?_eq_some_iff]
  constructor
  · rintro ⟨before, e, after, hsplit, he, hbefore⟩
    exact ⟨before, e, after, hsplit, hbefore, he⟩
  · rintro ⟨before, e, after, hsplit, hbefore, he⟩
    exact ⟨before, e, after, hsplit, he, hbefore⟩

/-- The loop over tasks finds what the structure gives, and no value is ever missing on its stack.
There is a truth value exactly if no arithmetic subexpression faults; else the first one that does,
from left to right, is the fault. -/
theorem work_strict (s : Store T) (c : Boolean T) :
    work s [.eval c] [] = some (c.evaluate s) ∧ c.evaluate s = c.eval s ∧
    (∀ v, c.evaluate s = .ok v ↔
      (∀ e ∈ c.arithmetic, ∃ a, e.eval s = .ok a) ∧ v = c.truth s) ∧
    ∀ f, c.evaluate s = .error f ↔
      ∃ before e after, c.arithmetic = before ++ e :: after ∧
        (∀ d ∈ before, ∃ a, d.eval s = .ok a) ∧ e.eval s = .error f := by
  rw [evaluate_eq_eval]
  exact ⟨work_singleton s c, rfl, fun v => eval_eq_ok_iff, fun f => eval_eq_error_iff⟩

end Boolean

end ImpLang
