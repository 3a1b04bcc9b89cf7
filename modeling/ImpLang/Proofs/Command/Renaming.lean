import ImpLang.Proofs.Command.Pending

namespace ImpLang

variable {T W : Type}

namespace Arith

def vars : Arith T → List String
  | lit _ => []
  | var x => [x]
  | binary _ l r => l.vars ++ r.vars

def rename (ρ : String → String) : Arith T → Arith T
  | lit n => .lit n
  | var x => .var (ρ x)
  | binary op l r => .binary op (l.rename ρ) (r.rename ρ)

theorem rename_id (e : Arith T) : e.rename id = e := by
  induction e with
  | lit n => rfl
  | var x => rfl
  | binary op l r ihl ihr => rw [rename, ihl, ihr]

end Arith

namespace Boolean

def vars : Boolean T → List String
  | compare _ l r => l.vars ++ r.vars
  | not b => b.vars
  | binary _ l r => l.vars ++ r.vars

def rename (ρ : String → String) : Boolean T → Boolean T
  | compare rel l r => .compare rel (l.rename ρ) (r.rename ρ)
  | not b => .not (b.rename ρ)
  | binary op l r => .binary op (l.rename ρ) (r.rename ρ)

theorem rename_id (b : Boolean T) : b.rename id = b := by
  induction b with
  | compare rel l r => rw [rename, Arith.rename_id, Arith.rename_id]
  | not b ih => rw [rename, ih]
  | binary op l r ihl ihr => rw [rename, ihl, ihr]

end Boolean

namespace Command

/-- The variables of the command, those it assigns to included. -/
def vars : Command T → List String
  | assign x e => x :: e.vars
  | seq c d => c.vars ++ d.vars
  | ifThen b c => b.vars ++ c.vars
  | ifElse b c d => b.vars ++ (c.vars ++ d.vars)
  | loop b c => b.vars ++ c.vars
  | print e => e.vars

def rename (ρ : String → String) : Command T → Command T
  | assign x e => .assign (ρ x) (e.rename ρ)
  | seq c d => .seq (c.rename ρ) (d.rename ρ)
  | ifThen b c => .ifThen (b.rename ρ) (c.rename ρ)
  | ifElse b c d => .ifElse (b.rename ρ) (c.rename ρ) (d.rename ρ)
  | loop b c => .loop (b.rename ρ) (c.rename ρ)
  | print e => .print (e.rename ρ)

theorem rename_id (c : Command T) : c.rename id = c := by
  induction c with
  | assign x e => rw [rename, Arith.rename_id, id]
  | seq c d ihc ihd => rw [rename, ihc, ihd]
  | ifThen b c ih => rw [rename, Boolean.rename_id, ih]
  | ifElse b c d ihc ihd => rw [rename, Boolean.rename_id, ihc, ihd]
  | loop b c ih => rw [rename, Boolean.rename_id, ih]
  | print e => rw [rename, Arith.rename_id]

theorem inherited_vars (xs : List String) :
    Inherited fun c : Command T => c.vars ⊆ xs where
  seq h := List.append_subset.1 h
  ifThen h := (List.append_subset.1 h).2
  ifElse h := List.append_subset.1 (List.append_subset.1 h).2
  loop h := (List.append_subset.1 h).2

end Command

structure World.Related (R : Store T → Store T → Prop) (w w' : World T W) : Prop where
  store : R w.store w'.store
  printed : w'.printed = w.printed

theorem World.Related.print {R : Store T → Store T → Prop} {w w' : World T W}
    (h : w.Related R w') (printed : W) :
    World.Related R { w with printed := printed } { w' with printed := printed } :=
  ⟨h.store, rfl⟩

structure Outcome.Related (R : Store T → Store T → Prop) (o o' : Outcome T W) : Prop where
  fault : o'.fault = o.fault
  world : o.world.Related R o'.world

variable [Number T] {ρ : String → String} {xs : List String} {R : Store T → Store T → Prop}
  {s u : Store T}

/-- Related stores give the variables the same values under their old and new names, and stay
related when one of the variables is assigned to in both. -/
structure RenamesStores (ρ : String → String) (xs : List String) (R : Store T → Store T → Prop) :
    Prop where
  lookup {s u x} (h : R s u) (hx : x ∈ xs) : u.lookup (ρ x) = s.lookup x
  insert {s u x} (h : R s u) (hx : x ∈ xs) (v : T) : R (s.insert x v) (u.insert (ρ x) v)

theorem Arith.eval_rename (hR : RenamesStores ρ xs R) (h : R s u) (e : Arith T)
    (he : e.vars ⊆ xs) : (e.rename ρ).eval u = e.eval s := by
  induction e with
  | lit n => rfl
  | var x => exact congrArg Except.ok (hR.lookup h (he List.mem_cons_self))
  | binary op l r ihl ihr =>
    obtain ⟨hl, hr⟩ := List.append_subset.1 he
    simp only [rename, eval, ihl hl, ihr hr]

theorem Boolean.eval_rename (hR : RenamesStores ρ xs R) (h : R s u) (b : Boolean T)
    (hb : b.vars ⊆ xs) : (b.rename ρ).eval u = b.eval s := by
  induction b with
  | compare rel l r =>
    obtain ⟨hl, hr⟩ := List.append_subset.1 hb
    simp only [rename, eval, l.eval_rename hR h hl, r.eval_rename hR h hr]
  | not b ih => simp only [rename, eval, ih hb]
  | binary op l r ihl ihr =>
    obtain ⟨hl, hr⟩ := List.append_subset.1 hb
    simp only [rename, eval, ihl hl, ihr hr]

namespace Machine

structure Renamed (ρ : String → String) (R : Store T → Store T → Prop) (m m' : Machine T W) :
    Prop where
  calls : m'.calls = m.calls.map (·.map (Command.rename ρ))
  world : m.world.Related R m'.world

inductive StepsAlike (ρ : String → String) (R : Store T → Store T → Prop) :
    Except (Outcome T W) (Machine T W) → Except (Outcome T W) (Machine T W) → Prop where
  | ok {m m'} (h : Renamed ρ R m m') : StepsAlike ρ R (.ok m) (.ok m')
  | error {o o'} (h : o.Related R o') : StepsAlike ρ R (.error o) (.error o')

variable {m m' : Machine T W}

theorem step_rename (sink : Sink W) (hR : RenamesStores ρ xs R)
    (hm : m.AllPending fun c => c.vars ⊆ xs) (h : Renamed ρ R m m') :
    StepsAlike ρ R (m.step sink) (m'.step sink) := by
  obtain ⟨calls', w'⟩ := m'
  obtain ⟨rfl, hw⟩ := h
  obtain ⟨_ | ⟨_ | ⟨c, rest⟩, calls⟩, w⟩ := m
  all_goals replace hw : World.Related R w w' := hw
  · exact .error ⟨rfl, hw⟩
  · exact .ok ⟨rfl, hw⟩
  have hc := (allPending_cons.1 hm).1
  cases c with
  | assign x e =>
    obtain ⟨hx, he⟩ := List.cons_subset.1 hc
    simp only [List.map_cons, Command.rename, step_assign, e.eval_rename hR hw.store he]
    cases e.eval w.store with
    | ok v => exact .ok ⟨rfl, hR.insert hw.store hx v, hw.printed⟩
    | error f => exact .error ⟨rfl, hw⟩
  | seq c d => exact .ok ⟨rfl, hw⟩
  | ifThen b c =>
    have hb := b.eval_rename hR hw.store (List.append_subset.1 hc).1
    simp only [List.map_cons, Command.rename, step_ifThen, hb]
    rcases b.eval w.store with f | (_ | _)
    · exact .error ⟨rfl, hw⟩
    · exact .ok ⟨rfl, hw⟩
    · exact .ok ⟨rfl, hw⟩
  | ifElse b c d =>
    have hb := b.eval_rename hR hw.store (List.append_subset.1 hc).1
    simp only [List.map_cons, Command.rename, step_ifElse, hb]
    rcases b.eval w.store with f | (_ | _)
    · exact .error ⟨rfl, hw⟩
    · exact .ok ⟨rfl, hw⟩
    · exact .ok ⟨rfl, hw⟩
  | loop b c =>
    have hb := b.eval_rename hR hw.store (List.append_subset.1 hc).1
    simp only [List.map_cons, Command.rename, step_loop, hb]
    rcases b.eval w.store with f | (_ | _)
    · exact .error ⟨rfl, hw⟩
    · exact .ok ⟨rfl, hw⟩
    · exact .ok ⟨rfl, hw⟩
  | print e =>
    simp only [List.map_cons, Command.rename, step_print, e.eval_rename hR hw.store hc]
    cases e.eval w.store with
    | error f => exact .error ⟨rfl, hw⟩
    | ok v =>
      simp only [hw.printed]
      cases sink w.printed (Number.render v) with
      | ok printed => exact .ok ⟨rfl, hw.print printed⟩
      | error printed => exact .error ⟨rfl, hw.print printed⟩

theorem run_rename (sink : Sink W) (hR : RenamesStores ρ xs R)
    (hm : m.AllPending fun c => c.vars ⊆ xs) (h : Renamed ρ R m m') (steps : Nat) :
    Option.Rel (Outcome.Related R) (m.run sink steps) (m'.run sink steps) := by
  induction steps generalizing m m' with
  | zero => exact .none
  | succ n ih =>
    have hstep := step_rename sink hR hm h
    generalize hs : m.step sink = next, hs' : m'.step sink = next' at hstep
    cases hstep with
    | ok hnext =>
      rw [run_of_step_ok hs, run_of_step_ok hs']
      exact ih (step_allPending (Command.inherited_vars xs) hm hs) hnext
    | error ho =>
      rw [run_of_step_error hs, run_of_step_error hs']
      exact .some ho

end Machine

open Machine

theorem Command.runIn_related {c : Command T} (hR : RenamesStores ρ c.vars R) (h : R s u)
    (sink : Sink W) (printed : W) (steps : Nat) :
    Option.Rel (Outcome.Related R) (c.runIn sink steps ⟨s, printed⟩)
      ((c.rename ρ).runIn sink steps ⟨u, printed⟩) := by
  have hstart : Renamed ρ R (⟨[[c]], s, printed⟩ : Machine T W)
      ⟨[[c.rename ρ]], u, printed⟩ := ⟨rfl, h, rfl⟩
  exact run_rename sink hR (allPending_singleton.2 (List.Subset.refl _)) hstart steps

end ImpLang
