import Mathlib
import ImpLang.Proofs.Command.Renaming
import ImpLang.Proofs.Store.Lookup

namespace ImpLang

variable {T W : Type} [Number T]

namespace Store

variable {xs : List String} {s u : Store T}

/-- The stores give the same values to the variables, whether these are bound or not. -/
def AgreesOn (xs : List String) (s u : Store T) : Prop := ∀ x ∈ xs, s.lookup x = u.lookup x

theorem AgreesOn.symm (h : s.AgreesOn xs u) : u.AgreesOn xs s := fun x hx => (h x hx).symm

theorem renamesStores_agreesOn (xs : List String) : RenamesStores id xs (AgreesOn (T := T) xs) where
  lookup h hx := (h _ hx).symm
  insert h _ v y hy := by rw [lookup_insert, lookup_insert, h y hy, id]

end Store

open Machine Store

variable {sink : Sink W} {c : Command T} {s u : Store T} {printed : W}

theorem exists_runIn_of_agreesOn {steps : Nat} {o : Outcome T W} (h : s.AgreesOn c.vars u)
    (ho : c.runIn sink steps ⟨s, printed⟩ = some o) :
    ∃ o', c.runIn sink steps ⟨u, printed⟩ = some o' ∧ o.Related (AgreesOn c.vars) o' := by
  have hrun := Command.runIn_related (renamesStores_agreesOn c.vars) h sink printed steps
  rw [ho, Command.rename_id] at hrun
  cases ho' : c.runIn sink steps ⟨u, printed⟩ with
  | none =>
    rw [ho'] at hrun
    exact absurd hrun Option.not_rel_some_none
  | some o' =>
    rw [ho'] at hrun
    exact ⟨o', rfl, Option.rel_some_some.1 hrun⟩

/-- From stores that agree on the variables of a command its runs end alike, if they end: with the
same fault or none, the same output, and stores that agree on these variables again. -/
theorem runIn_agreesOn (sink : Sink W) (c : Command T) (s u : Store T) (printed : W)
    (h : s.AgreesOn c.vars u) :
    ((∃ steps o, c.runIn sink steps ⟨s, printed⟩ = some o) ↔
      ∃ steps o, c.runIn sink steps ⟨u, printed⟩ = some o) ∧
    ∀ steps o steps' o', c.runIn sink steps ⟨s, printed⟩ = some o →
      c.runIn sink steps' ⟨u, printed⟩ = some o' →
      o'.fault = o.fault ∧ o'.world.printed = o.world.printed ∧
        o.world.store.AgreesOn c.vars o'.world.store := by
  refine ⟨⟨?_, ?_⟩, ?_⟩
  · rintro ⟨steps, o, ho⟩
    obtain ⟨o', ho', -⟩ := exists_runIn_of_agreesOn h ho
    exact ⟨steps, o', ho'⟩
  · rintro ⟨steps, o, ho⟩
    obtain ⟨o', ho', -⟩ := exists_runIn_of_agreesOn h.symm ho
    exact ⟨steps, o', ho'⟩
  · intro steps o steps' o' ho ho'
    obtain ⟨q, hq, hrel⟩ := exists_runIn_of_agreesOn h ho
    obtain rfl := Halts.unique ⟨steps, hq⟩ ⟨steps', ho'⟩
    exact ⟨hrel.fault, hrel.world.printed, hrel.world.store⟩

/-- A variable that is bound to zero and one that is not bound, and a variable that the program does
not mention: the loop ends in the same division by zero. -/
theorem runIn_agreesOn_of_unbound :
    let c : Command Int64 := .loop (.compare .lt (.var "n") (.lit 2))
      (.seq (.print (.binary .div (.lit 6) (.binary .sub (.lit 1) (.var "n"))))
        (.assign "n" (.binary .add (.var "n") (.lit 1))))
    let s : Store Int64 := .ofList [("n", 0), ("k", 5)]
    let o : Outcome Int64 := ⟨some .divisionByZero, .ofList [("n", 1), ("k", 5)], #["6"]⟩
    s.AgreesOn c.vars .empty ∧ c.runIn (Lines.sink none) 8 ⟨s, #[]⟩ = some o ∧
      ∃ steps o', c.runIn (Lines.sink none) steps ⟨.empty, #[]⟩ = some o' ∧
        o'.fault = o.fault ∧ o'.world.printed = o.world.printed ∧
        o.world.store.AgreesOn c.vars o'.world.store := by
  intro c s o
  have h : s.AgreesOn c.vars .empty := by
    unfold AgreesOn
    decide
  have ho : c.runIn (Lines.sink none) 8 ⟨s, #[]⟩ = some o := by cbv
  obtain ⟨hhalts, hends⟩ := runIn_agreesOn (Lines.sink none) c s .empty #[] h
  obtain ⟨steps, o', ho'⟩ := hhalts.1 ⟨8, o, ho⟩
  exact ⟨h, ho, steps, o', ho', hends 8 o steps o' ho ho'⟩

end ImpLang
