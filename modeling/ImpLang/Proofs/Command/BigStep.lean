import ImpLang.Command.Machine

namespace ImpLang

variable {T W : Type} [Number T]

/-- A command takes a world to an outcome. A fault skips what follows it. -/
inductive Executes (sink : Sink W) : Command T → World T W → Outcome T W → Prop where
  | assign {x e w v} (value : e.eval w.store = .ok v) :
      Executes sink (.assign x e) w ⟨none, { w with store := w.store.insert x v }⟩
  | assign_fault {x e w f} (value : e.eval w.store = .error f) :
      Executes sink (.assign x e) w ⟨some f, w⟩
  | seq {c d w u o} (first : Executes sink c w ⟨none, u⟩) (second : Executes sink d u o) :
      Executes sink (.seq c d) w o
  | seq_fault {c d w u f} (first : Executes sink c w ⟨some f, u⟩) :
      Executes sink (.seq c d) w ⟨some f, u⟩
  | ifThen_true {b c w o} (condition : b.eval w.store = .ok true) (body : Executes sink c w o) :
      Executes sink (.ifThen b c) w o
  | ifThen_false {b c w} (condition : b.eval w.store = .ok false) :
      Executes sink (.ifThen b c) w ⟨none, w⟩
  | ifThen_fault {b c w f} (condition : b.eval w.store = .error f) :
      Executes sink (.ifThen b c) w ⟨some f, w⟩
  | ifElse_true {b c d w o} (condition : b.eval w.store = .ok true) (body : Executes sink c w o) :
      Executes sink (.ifElse b c d) w o
  | ifElse_false {b c d w o} (condition : b.eval w.store = .ok false)
      (other : Executes sink d w o) : Executes sink (.ifElse b c d) w o
  | ifElse_fault {b c d w f} (condition : b.eval w.store = .error f) :
      Executes sink (.ifElse b c d) w ⟨some f, w⟩
  | loop_true {b c w u o} (condition : b.eval w.store = .ok true)
      (body : Executes sink c w ⟨none, u⟩) (again : Executes sink (.loop b c) u o) :
      Executes sink (.loop b c) w o
  | loop_body_fault {b c w u f} (condition : b.eval w.store = .ok true)
      (body : Executes sink c w ⟨some f, u⟩) : Executes sink (.loop b c) w ⟨some f, u⟩
  | loop_false {b c w} (condition : b.eval w.store = .ok false) :
      Executes sink (.loop b c) w ⟨none, w⟩
  | loop_fault {b c w f} (condition : b.eval w.store = .error f) :
      Executes sink (.loop b c) w ⟨some f, w⟩
  | print {e w v printed} (value : e.eval w.store = .ok v)
      (write : sink w.printed (Number.render v) = .ok printed) :
      Executes sink (.print e) w ⟨none, { w with printed := printed }⟩
  | print_fault {e w f} (value : e.eval w.store = .error f) :
      Executes sink (.print e) w ⟨some f, w⟩
  | print_refused {e w v printed} (value : e.eval w.store = .ok v)
      (write : sink w.printed (Number.render v) = .error printed) :
      Executes sink (.print e) w ⟨some .output, { w with printed := printed }⟩

namespace Machine

def Halts (sink : Sink W) (m : Machine T W) (o : Outcome T W) : Prop :=
  ∃ steps, m.run sink steps = some o

variable {sink : Sink W} {m next : Machine T W} {o : Outcome T W}

theorem run_of_step_ok (h : m.step sink = .ok next) (steps : Nat) :
    m.run sink (steps + 1) = next.run sink steps := by
  rw [run, h]

theorem run_of_step_error (h : m.step sink = .error o) (steps : Nat) :
    m.run sink (steps + 1) = some o := by
  rw [run, h]

theorem halts_of_step_error (h : m.step sink = .error o) : Halts sink m o :=
  ⟨1, run_of_step_error h 0⟩

theorem halts_of_step_ok (h : m.step sink = .ok next) (hn : Halts sink next o) :
    Halts sink m o := by
  obtain ⟨steps, hs⟩ := hn
  exact ⟨steps + 1, (run_of_step_ok h steps).trans hs⟩

theorem run_add {steps : Nat} (h : m.run sink steps = some o) (more : Nat) :
    m.run sink (steps + more) = some o := by
  induction steps generalizing m with
  | zero => cases h
  | succ n ih =>
    rw [Nat.add_right_comm]
    cases hs : m.step sink with
    | error o' => rw [run_of_step_error hs] at h ⊢; exact h
    | ok next => rw [run_of_step_ok hs] at h ⊢; exact ih h

theorem Halts.unique {o' : Outcome T W} (h : Halts sink m o) (h' : Halts sink m o') : o = o' := by
  obtain ⟨n, hn⟩ := h
  obtain ⟨k, hk⟩ := h'
  have hn' := run_add hn k
  rw [Nat.add_comm, run_add hk n] at hn'
  exact (Option.some.inj hn').symm

theorem run_eq_none_iff :
    (∀ steps, m.run sink steps = none) ↔ ∀ o, ¬ Halts sink m o := by
  constructor
  · rintro h o ⟨steps, hs⟩
    rw [h steps] at hs
    cases hs
  · exact fun h steps => Option.eq_none_iff_forall_ne_some.2 fun o hs => h o ⟨steps, hs⟩

/-- How a run ends once a command of the innermost call has come to an outcome: the calls go on,
unless the outcome is a fault. -/
def HaltsFrom (sink : Sink W) (first : Outcome T W) (calls : List (List (Command T)))
    (o : Outcome T W) : Prop :=
  match first.fault with
  | none => Halts sink ⟨calls, first.world⟩ o
  | some _ => o = first

end Machine

open Machine

variable {sink : Sink W} {c : Command T} {w : World T W}

/-- What the rules derive the machine does, whatever is pending. -/
theorem Executes.halts {first o : Outcome T W} (h : Executes sink c w first)
    {rest : List (Command T)} {calls : List (List (Command T))}
    (ho : HaltsFrom sink first (rest :: calls) o) : Halts sink ⟨(c :: rest) :: calls, w⟩ o := by
  induction h generalizing rest calls with
  | assign value => exact halts_of_step_ok (by rw [step_assign, value]) ho
  | assign_fault value =>
    cases ho
    exact halts_of_step_error (by rw [step_assign, value])
  | seq _ _ ihc ihd => exact halts_of_step_ok step_seq (ihc (ihd ho))
  | seq_fault _ ih => exact halts_of_step_ok step_seq (ih ho)
  | ifThen_true condition _ ih => exact halts_of_step_ok (by rw [step_ifThen, condition]) (ih ho)
  | ifThen_false condition => exact halts_of_step_ok (by rw [step_ifThen, condition]) ho
  | ifThen_fault condition =>
    cases ho
    exact halts_of_step_error (by rw [step_ifThen, condition])
  | ifElse_true condition _ ih => exact halts_of_step_ok (by rw [step_ifElse, condition]) (ih ho)
  | ifElse_false condition _ ih => exact halts_of_step_ok (by rw [step_ifElse, condition]) (ih ho)
  | ifElse_fault condition =>
    cases ho
    exact halts_of_step_error (by rw [step_ifElse, condition])
  | loop_true condition _ _ ihc ihl =>
    -- The body ends in a call of its own, and the loop is still in front of the call below.
    have hr := halts_of_step_ok step_return (ihl ho)
    exact halts_of_step_ok (by rw [step_loop, condition]) (ihc hr)
  | @loop_body_fault b d u _ _ condition _ ih =>
    have hb : Halts sink ⟨[d] :: (.loop b d :: rest) :: calls, u⟩ o := ih ho
    exact halts_of_step_ok (by rw [step_loop, condition]) hb
  | loop_false condition => exact halts_of_step_ok (by rw [step_loop, condition]) ho
  | loop_fault condition =>
    cases ho
    exact halts_of_step_error (by rw [step_loop, condition])
  | print value write => exact halts_of_step_ok (by rw [step_print, value]; simp only [write]) ho
  | print_fault value =>
    cases ho
    exact halts_of_step_error (by rw [step_print, value])
  | print_refused value write =>
    cases ho
    exact halts_of_step_error (by rw [step_print, value]; simp only [write])

def RunsFrom (sink : Sink W) (bound : Nat) (first : Outcome T W)
    (calls : List (List (Command T))) (o : Outcome T W) : Prop :=
  match first.fault with
  | none => ∃ steps, steps < bound ∧ run sink steps ⟨calls, first.world⟩ = some o
  | some _ => o = first

theorem RunsFrom.mono {bound more : Nat} {first o : Outcome T W}
    {calls : List (List (Command T))} (h : RunsFrom sink bound first calls o)
    (hb : bound ≤ more) : RunsFrom sink more first calls o := by
  obtain ⟨_ | f, u⟩ := first
  · obtain ⟨steps, hs, hr⟩ := h
    exact ⟨steps, Nat.lt_of_lt_of_le hs hb, hr⟩
  · exact h

/-- A run that ends has first brought the command in front to an outcome that the rules derive. -/
theorem executes_of_run {steps : Nat} {rest : List (Command T)} {calls : List (List (Command T))}
    {o : Outcome T W} (h : run sink steps ⟨(c :: rest) :: calls, w⟩ = some o) :
    ∃ first, Executes sink c w first ∧ RunsFrom sink steps first (rest :: calls) o := by
  -- On the number of steps: a loop comes back to itself behind its body, with fewer steps left.
  induction steps using Nat.strongRecOn generalizing c rest calls w o with
  | ind steps ih =>
    cases steps with
    | zero => cases h
    | succ n =>
      have hn : n < n + 1 := Nat.lt_succ_self n
      cases c with
      | assign x e =>
        cases hv : e.eval w.store with
        | ok v =>
          rw [run_of_step_ok (by rw [step_assign, hv])] at h
          exact ⟨_, .assign hv, n, hn, h⟩
        | error f =>
          rw [run_of_step_error (by rw [step_assign, hv])] at h
          exact ⟨_, .assign_fault hv, (Option.some.inj h).symm⟩
      | seq c d =>
        rw [run_of_step_ok step_seq] at h
        obtain ⟨⟨_ | f, u⟩, hc, hr⟩ := ih n hn h
        · obtain ⟨k, hk, hr⟩ := hr
          obtain ⟨o', hd, hr⟩ := ih k (Nat.lt_trans hk hn) hr
          exact ⟨o', .seq hc hd, hr.mono (Nat.le_of_lt (Nat.lt_trans hk hn))⟩
        · exact ⟨_, .seq_fault hc, hr⟩
      | ifThen b c =>
        rcases hb : b.eval w.store with f | (_ | _)
        · rw [run_of_step_error (by rw [step_ifThen, hb])] at h
          exact ⟨_, .ifThen_fault hb, (Option.some.inj h).symm⟩
        · rw [run_of_step_ok (by rw [step_ifThen, hb])] at h
          exact ⟨_, .ifThen_false hb, n, hn, h⟩
        · rw [run_of_step_ok (by rw [step_ifThen, hb])] at h
          obtain ⟨o', hc, hr⟩ := ih n hn h
          exact ⟨o', .ifThen_true hb hc, hr.mono (Nat.le_succ n)⟩
      | ifElse b c d =>
        rcases hb : b.eval w.store with f | (_ | _)
        · rw [run_of_step_error (by rw [step_ifElse, hb])] at h
          exact ⟨_, .ifElse_fault hb, (Option.some.inj h).symm⟩
        · rw [run_of_step_ok (by rw [step_ifElse, hb])] at h
          obtain ⟨o', hd, hr⟩ := ih n hn h
          exact ⟨o', .ifElse_false hb hd, hr.mono (Nat.le_succ n)⟩
        · rw [run_of_step_ok (by rw [step_ifElse, hb])] at h
          obtain ⟨o', hc, hr⟩ := ih n hn h
          exact ⟨o', .ifElse_true hb hc, hr.mono (Nat.le_succ n)⟩
      | loop b c =>
        rcases hb : b.eval w.store with f | (_ | _)
        · rw [run_of_step_error (by rw [step_loop, hb])] at h
          exact ⟨_, .loop_fault hb, (Option.some.inj h).symm⟩
        · rw [run_of_step_ok (by rw [step_loop, hb])] at h
          exact ⟨_, .loop_false hb, n, hn, h⟩
        · rw [run_of_step_ok (by rw [step_loop, hb])] at h
          obtain ⟨⟨_ | f, u⟩, hc, hr⟩ := ih n hn h
          · obtain ⟨k, hk, hr⟩ := hr
            cases k with
            | zero => cases hr
            | succ k =>
              rw [run_of_step_ok step_return] at hr
              obtain ⟨o', hl, hr⟩ := ih k (by omega) hr
              exact ⟨o', .loop_true hb hc hl, hr.mono (by omega)⟩
          · exact ⟨_, .loop_body_fault hb hc, hr⟩
      | print e =>
        cases hv : e.eval w.store with
        | ok v =>
          cases hp : sink w.printed (Number.render v) with
          | ok printed =>
            rw [run_of_step_ok (by rw [step_print, hv]; dsimp only; rw [hp])] at h
            exact ⟨_, .print hv hp, n, hn, h⟩
          | error printed =>
            rw [run_of_step_error (by rw [step_print, hv]; dsimp only; rw [hp])] at h
            exact ⟨_, .print_refused hv hp, (Option.some.inj h).symm⟩
        | error f =>
          rw [run_of_step_error (by rw [step_print, hv])] at h
          exact ⟨_, .print_fault hv, (Option.some.inj h).symm⟩

theorem halts_singleton_iff {o : Outcome T W} : Halts sink ⟨[[c]], w⟩ o ↔ Executes sink c w o := by
  have hend (u : World T W) : Halts sink ⟨[[]], u⟩ ⟨none, u⟩ :=
    halts_of_step_ok step_return (halts_of_step_error rfl)
  constructor
  · rintro ⟨steps, h⟩
    obtain ⟨⟨_ | f, u⟩, hc, hr⟩ := executes_of_run h
    · obtain ⟨k, -, hr⟩ := hr
      rwa [Halts.unique ⟨k, hr⟩ (hend u)]
    · rwa [show o = _ from hr]
  · intro h
    refine h.halts ?_
    obtain ⟨_ | f, u⟩ := o
    · exact hend u
    · rfl

/-- The run of a command in a world has an outcome exactly if the rules derive it, and has no end
exactly if they derive none. The store after an assignment differs from the one before in the value
of the variable only. -/
theorem runIn_iff_executes (sink : Sink W) (c : Command T) (w : World T W) :
    (∀ o, (∃ steps, c.runIn sink steps w = some o) ↔ Executes sink c w o) ∧
    (∀ o o', Executes sink c w o → Executes sink c w o' → o = o') ∧
    ((∀ steps, c.runIn sink steps w = none) ↔ ∀ o, ¬ Executes sink c w o) ∧
    ∀ (s : Store T) (x : String) (v : T) (y : String),
      (s.insert x v).get? y = if y = x then some v else s.get? y := by
  refine ⟨fun o => halts_singleton_iff, ?_, run_eq_none_iff.trans ?_, Store.get?_insert⟩
  · intro o o' h h'
    exact Halts.unique (halts_singleton_iff.2 h) (halts_singleton_iff.2 h')
  · exact forall_congr' fun o => not_congr halts_singleton_iff

end ImpLang
