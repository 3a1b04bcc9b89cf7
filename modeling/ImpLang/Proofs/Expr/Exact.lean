import ImpLang.Proofs.Expr.Widening

namespace ImpLang

variable {T : Type} [Number T] {s : Store T} {f : Fault}

namespace Number

/-- Some number of the type has this value. -/
def InRange (T : Type) [Number T] (n : Int) : Prop := ∃ a : T, toInt a = n

theorem isSome_ofInt?_iff {n : Int} : (ofInt? n : Option T).isSome ↔ InRange T n := by
  simp only [Option.isSome_iff_exists, ofInt?_eq_some_iff, InRange]

instance (n : Int) : Decidable (InRange T n) := decidable_of_iff _ isSome_ofInt?_iff

theorem inRange_int64_iff {n : Int} : InRange Int64 n ↔ -2 ^ 63 ≤ n ∧ n ≤ 2 ^ 63 - 1 := by
  rw [← isSome_ofInt?_iff, Option.isSome_iff_ne_none]
  exact (Decidable.iff_not_comm.1 int64?_eq_none_iff).symm

end Number

open Number

theorem ArithOp.apply_cases (op : ArithOp) (a b : T) :
    (op = .div ∧ toInt b = 0) ∧ op.apply a b = .error .divisionByZero ∨
    ¬ (op = .div ∧ toInt b = 0) ∧ ¬ InRange T (op.exact (toInt a) (toInt b)) ∧
      op.apply a b = .error (.overflow op) ∨
    ¬ (op = .div ∧ toInt b = 0) ∧
      ∃ v, toInt v = op.exact (toInt a) (toInt b) ∧ op.apply a b = .ok v := by
  unfold ArithOp.apply
  by_cases hz : op = .div ∧ toInt b = 0
  · exact .inl ⟨hz, if_pos hz⟩
  · rw [if_neg hz]
    cases hr : (ofInt? (op.exact (toInt a) (toInt b)) : Option T) with
    | none =>
      refine .inr (.inl ⟨hz, fun h => ?_, rfl⟩)
      rw [← isSome_ofInt?_iff, hr] at h
      cases h
    | some v => exact .inr (.inr ⟨hz, v, ofInt?_eq_some_iff.1 hr, rfl⟩)

namespace Arith

/-- The value in exact arithmetic, where a quotient is cut off towards zero, and is zero if the
divisor is. A variable that is not bound is zero. -/
def exact (s : Store T) : Arith T → Int
  | lit n => toInt n
  | var x => ((s.get? x).map toInt).getD 0
  | binary .add l r => l.exact s + r.exact s
  | binary .sub l r => l.exact s - r.exact s
  | binary .mul l r => l.exact s * r.exact s
  | binary .div l r => (l.exact s).tdiv (r.exact s)

theorem exact_var (s : Store T) (x : String) : (var x).exact s = toInt (s.lookup x) := by
  rw [exact, Store.lookup]
  cases s.get? x with
  | none => exact toInt_zero.symm
  | some v => rfl

theorem exact_binary (s : Store T) (op : ArithOp) (l r : Arith T) :
    (binary op l r).exact s = op.exact (l.exact s) (r.exact s) := by
  cases op <;> rfl

/-- All subexpressions: those of the left operand, then those of the right one, then the whole. -/
def postorder : Arith T → List (Arith T)
  | lit n => [lit n]
  | var x => [var x]
  | binary op l r => l.postorder ++ r.postorder ++ [binary op l r]

/-- What goes wrong at the outermost operator, where its operands have their exact values. -/
def fault? (s : Store T) (e : Arith T) : Option Fault :=
  match e with
  | lit _ => none
  | var _ => none
  | binary op _ r =>
    if op = .div ∧ r.exact s = 0 then some .divisionByZero
    else if InRange T (e.exact s) then none
    else some (.overflow op)

theorem fault?_binary_eq_none_iff {op : ArithOp} {l r : Arith T} :
    fault? s (binary op l r) = none ↔
      ¬ (op = .div ∧ r.exact s = 0) ∧ InRange T ((binary op l r).exact s) := by
  simp only [fault?]
  split <;> simp [*]

theorem apply_of_exact (op : ArithOp) {l r : Arith T} {a b : T} (ha : toInt a = l.exact s)
    (hb : toInt b = r.exact s) :
    match fault? s (binary op l r) with
    | none => ∃ v, op.apply a b = .ok v ∧ toInt v = (binary op l r).exact s
    | some f => op.apply a b = .error f := by
  obtain ⟨hz, h⟩ | ⟨hz, hr, h⟩ | ⟨hz, v, hv, h⟩ := op.apply_cases a b
  · have hf : fault? s (binary op l r) = some .divisionByZero := if_pos (hb ▸ hz)
    rwa [hf]
  · rw [ha, hb, ← exact_binary] at hr
    have hf : fault? s (binary op l r) = some (.overflow op) :=
      (if_neg (hb ▸ hz)).trans (if_neg hr)
    rwa [hf]
  · rw [ha, hb, ← exact_binary] at hv
    have hf : fault? s (binary op l r) = none := fault?_binary_eq_none_iff.2 ⟨hb ▸ hz, v, hv⟩
    rw [hf]
    exact ⟨v, h, hv⟩

theorem eval_of_postorder (s : Store T) (e : Arith T) :
    match e.postorder.findSome? (fault? s) with
    | none => ∃ v, e.eval s = .ok v ∧ Number.toInt v = e.exact s
    | some f => e.eval s = .error f := by
  induction e with
  | lit n => exact ⟨n, rfl, rfl⟩
  | var x => exact ⟨s.lookup x, rfl, (exact_var s x).symm⟩
  | binary op l r ihl ihr =>
    simp only [postorder, List.findSome?_append, List.findSome?_cons, List.findSome?_nil, eval]
    cases hl : l.postorder.findSome? (fault? s) with
    | some f =>
      rw [hl] at ihl
      simp only [ihl, Option.some_or]
      rfl
    | none =>
      rw [hl] at ihl
      obtain ⟨a, ha, hea⟩ := ihl
      cases hr : r.postorder.findSome? (fault? s) with
      | some f =>
        rw [hr] at ihr
        simp only [ha, ihr, Option.none_or, Option.some_or]
        rfl
      | none =>
        rw [hr] at ihr
        obtain ⟨b, hb, heb⟩ := ihr
        -- Both operands have their exact values, so the operator is applied to them.
        have happly : (do let a ← l.eval s; let b ← r.eval s; op.apply a b) = op.apply a b := by
          rw [ha, hb]
          rfl
        simp only [happly, Option.none_or]
        have hop := apply_of_exact op hea heb
        cases hf : fault? s (binary op l r) with
        | some f => simpa only [hf] using hop
        | none => simpa only [hf] using hop

theorem toInt_of_eval {e : Arith T} {v : T} (h : e.eval s = .ok v) :
    Number.toInt v = e.exact s := by
  have hp := eval_of_postorder s e
  split at hp
  · obtain ⟨w, hw, hv⟩ := hp
    rw [hw] at h
    cases h
    exact hv
  · rw [hp] at h
    cases h

theorem eval_eq_ok_iff {e : Arith T} {v : T} :
    e.eval s = .ok v ↔ (∀ d ∈ e.postorder, d.fault? s = none) ∧ Number.toInt v = e.exact s := by
  have hp := eval_of_postorder s e
  rw [← List.findSome?_eq_none_iff]
  constructor
  · intro h
    refine ⟨?_, toInt_of_eval h⟩
    split at hp
    · assumption
    · rw [hp] at h
      cases h
  · rintro ⟨hnone, hv⟩
    rw [hnone] at hp
    obtain ⟨w, hw, hew⟩ := hp
    rw [hw, Number.toInt_inj (hew.trans hv.symm)]

theorem eval_eq_error_iff {e : Arith T} :
    e.eval s = .error f ↔
      ∃ before after d, e.postorder = before ++ d :: after ∧ (∀ c ∈ before, c.fault? s = none) ∧
        d.fault? s = some f := by
  have hp := eval_of_postorder s e
  constructor
  · intro h
    split at hp
    · obtain ⟨w, hw, -⟩ := hp
      rw [hw] at h
      cases h
    · rename_i g hg
      obtain rfl : g = f := Except.error.inj (hp.symm.trans h)
      obtain ⟨before, d, after, hpost, hd, hbefore⟩ := List.findSome?_eq_some_iff.1 hg
      exact ⟨before, after, d, hpost, hbefore, hd⟩
  · rintro ⟨before, after, d, hpost, hbefore, hd⟩
    have hg := List.findSome?_eq_some_iff.2 ⟨before, d, after, hpost, hd, hbefore⟩
    rw [hg] at hp
    exact hp

section

variable {s : Store Int64}

theorem exact_mem_range_of_fault? {d : Arith Int64} (h : d.fault? s = none) :
    -2 ^ 63 ≤ d.exact s ∧ d.exact s ≤ 2 ^ 63 - 1 := by
  cases d with
  | lit n => exact inRange_int64_iff.1 ⟨n, rfl⟩
  | var x => exact inRange_int64_iff.1 ⟨s.lookup x, (exact_var s x).symm⟩
  | binary op l r => exact inRange_int64_iff.1 (fault?_binary_eq_none_iff.1 h).2

theorem forall_fault?_eq_none_iff {e : Arith Int64} :
    (∀ d ∈ e.postorder, d.fault? s = none) ↔
      (∀ l r, binary .div l r ∈ e.postorder → r.exact s ≠ 0) ∧
        ∀ d ∈ e.postorder, -2 ^ 63 ≤ d.exact s ∧ d.exact s ≤ 2 ^ 63 - 1 := by
  constructor
  · intro h
    refine ⟨fun l r hd hz => ?_, fun d hd => exact_mem_range_of_fault? (h d hd)⟩
    exact (fault?_binary_eq_none_iff.1 (h _ hd)).1 ⟨rfl, hz⟩
  · rintro ⟨hzero, hrange⟩ d hd
    cases d with
    | lit n => rfl
    | var x => rfl
    | binary op l r =>
      refine fault?_binary_eq_none_iff.2 ⟨?_, inRange_int64_iff.2 (hrange _ hd)⟩
      rintro ⟨rfl, hz⟩
      exact hzero l r hd hz

end

/-- The loop over tasks finds the value that the structure gives, and no value is ever missing on
its stack. It is the exact value if no operator fails on the exact values of its operands, and else
the first operator in postorder that does is the fault. Over integers of 64 bits there is a value
exactly if no divisor is zero and the exact value of every subexpression is in range. -/
theorem work_exact :
    (∀ {T : Type} [Number T] (s : Store T) (e : Arith T),
      work s [.eval e] [] = some (e.evaluate s) ∧ e.evaluate s = e.eval s ∧
      (∀ v, e.evaluate s = .ok v ↔
        (∀ d ∈ e.postorder, d.fault? s = none) ∧ Number.toInt v = e.exact s) ∧
      ∀ f, e.evaluate s = .error f ↔
        ∃ (before after : List (Arith T)) (d : Arith T), e.postorder = before ++ d :: after ∧
          (∀ c ∈ before, c.fault? s = none) ∧ d.fault? s = some f) ∧
    ∀ (s : Store Int64) (e : Arith Int64) (v : Int64), e.evaluate s = .ok v ↔
      (∀ l r, binary .div l r ∈ e.postorder → r.exact s ≠ 0) ∧
      (∀ d ∈ e.postorder, -2 ^ 63 ≤ d.exact s ∧ d.exact s ≤ 2 ^ 63 - 1) ∧
      v.toInt = e.exact s := by
  constructor
  · intro T _ s e
    rw [evaluate_eq_eval]
    exact ⟨work_singleton s e, rfl, fun v => eval_eq_ok_iff, fun f => eval_eq_error_iff⟩
  · intro s e v
    rw [evaluate_eq_eval, eval_eq_ok_iff, forall_fault?_eq_none_iff, and_assoc]
    rfl

end Arith

end ImpLang
