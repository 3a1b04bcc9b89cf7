import Mathlib
import ImpLang.Proofs.Command.Renaming
import ImpLang.Proofs.Grammar.Translation
import ImpLang.Proofs.Program.Source
import ImpLang.Proofs.Store.Lookup

namespace ImpLang

variable {T W : Type} {ρ : String → String}

def Grammar.Translation.ofNames (T : Type) [Number T] (ρ : String → String) :
    Translation T T where
  literal n := n
  name := ρ
  arith := Arith.rename ρ
  boolean := Boolean.rename ρ
  command := Command.rename ρ
  denotes h := h
  lit _ := rfl
  var _ := rfl
  binary _ _ _ := rfl
  compare _ _ _ := rfl
  not _ := rfl
  connect _ _ _ := rfl
  assign _ _ := rfl
  seq _ _ := rfl
  ifThen _ _ := rfl
  ifElse _ _ _ := rfl
  loop _ _ := rfl
  print _ := rfl

theorem Grammar.Translation.ofNames_covers (T : Type) [Number T] (ρ : String → String)
    (t : Token) : (ofNames T ρ).Covers t :=
  fun _ _ n hn => ⟨n, hn, rfl⟩

namespace Command

open Grammar.Translation

variable [Number T]

theorem ofTokens?_map_rename (ρ : String → String) (ts : Array Token) :
    ofTokens? (T := T) (ts.map (Token.rename ρ)) = (ofTokens? ts).map (rename ρ) := by
  refine Option.ext fun c => ?_
  rw [ofTokens?_eq_some, Array.toList_map, Option.map_eq_some_iff]
  simp only [ofTokens?_eq_some]
  exact derives_iff fun t _ => ofNames_covers T ρ t

end Command

namespace Store

open Function

def rename (ρ : String → String) (s : Store T) : Store T :=
  ofList (s.bindings.map fun (x, v) => (ρ x, v))

variable {s : Store T} {x y : String} {v : T}

theorem get?_rename_eq_some_iff (hρ : Injective ρ) :
    (s.rename ρ).get? y = some v ↔ ∃ x, ρ x = y ∧ s.get? x = some v := by
  have hnames : (s.bindings.map fun (x, v) => (ρ x, v)).map Prod.fst = s.names.map ρ := by
    simp [names]
  have hnodup := s.nodup_names.map hρ
  rw [← hnames] at hnodup
  rw [rename, get?_ofList_eq_some_iff, bindsLast_iff_mem hnodup]
  simp [get?_eq_some_iff, and_comm]

theorem get?_rename (hρ : Injective ρ) (s : Store T) (x : String) :
    (s.rename ρ).get? (ρ x) = s.get? x := by
  refine Option.ext fun v => ?_
  simp [get?_rename_eq_some_iff hρ, hρ.eq_iff]

theorem insert_rename (hρ : Injective ρ) (s : Store T) (x : String) (v : T) :
    (s.insert x v).rename ρ = (s.rename ρ).insert (ρ x) v := by
  refine ext_get? fun y => ?_
  rw [get?_insert]
  by_cases hy : y = ρ x
  · rw [hy, get?_rename hρ, get?_insert, if_pos rfl, if_pos rfl]
  · refine Option.ext fun w => ?_
    rw [if_neg hy, get?_rename_eq_some_iff hρ, get?_rename_eq_some_iff hρ]
    refine exists_congr fun z => and_congr_right ?_
    rintro rfl
    rw [get?_insert, if_neg fun hz => hy (congrArg ρ hz)]

theorem renamesStores_rename [Number T] (hρ : Injective ρ) (xs : List String) :
    RenamesStores ρ xs fun s u : Store T => u = s.rename ρ where
  lookup h _ := by rw [h, lookup, get?_rename hρ, lookup]
  insert h _ v := by rw [h, insert_rename hρ]

end Store

def Outcome.rename (ρ : String → String) (o : Outcome T W) : Outcome T W :=
  ⟨o.fault, o.world.store.rename ρ, o.world.printed⟩

theorem Outcome.Related.eq_rename {o o' : Outcome T W}
    (h : o.Related (fun s u => u = s.rename ρ) o') : o' = o.rename ρ := by
  obtain ⟨fault, store, printed⟩ := o'
  obtain ⟨rfl, rfl, rfl⟩ := h
  rfl

theorem Command.runIn_rename [Number T] (hρ : Function.Injective ρ) (sink : Sink W)
    (c : Command T) (s : Store T) (printed : W) (steps : Nat) :
    (c.rename ρ).runIn sink steps ⟨s.rename ρ, printed⟩ =
      (c.runIn sink steps ⟨s, printed⟩).map (Outcome.rename ρ) := by
  have hrun := runIn_related (s := s) (Store.renamesStores_rename hρ c.vars) rfl sink printed steps
  generalize c.runIn sink steps ⟨s, printed⟩ = first,
    (c.rename ρ).runIn sink steps ⟨s.rename ρ, printed⟩ = second at hrun
  cases hrun with
  | none => rfl
  | some h => exact congrArg some h.eq_rename

/-- What the variables are called does not matter. With other texts for the ID tokens, whichever,
there is a program just if there was one before, and it is the same one with these names; if no two
names become one, it runs from the renamed store as the first one does from the store. -/
theorem Command.ofTokens?_runIn_rename (T : Type) [Number T] (ρ : String → String) :
    (∀ ts : Array Token,
      ofTokens? (T := T) (ts.map (Token.rename ρ)) = (ofTokens? ts).map (rename ρ)) ∧
    (Function.Injective ρ → ∀ {W : Type} (sink : Sink W) (c : Command T) (s : Store T)
      (printed : W) (steps : Nat),
      (c.rename ρ).runIn sink steps ⟨s.rename ρ, printed⟩ =
        (c.runIn sink steps ⟨s, printed⟩).map (Outcome.rename ρ)) :=
  ⟨ofTokens?_map_rename ρ,
    fun hρ _ sink c s printed steps => runIn_rename hρ sink c s printed steps⟩

/-- One new name is spelled like a keyword, and both have been odd before: the renamed program still
divides by the variable that is not bound. -/
theorem Command.ofTokens?_runIn_rename_odd_names :
    let ρ : String → String := fun x => "en" ++ x
    let ts : Array Token := #[.reserved "print", .id "d", .reserved ";", .id "d", .reserved ":=",
      .int "1", .reserved "/", .id "("]
    let c : Command Int64 := .seq (.print (.var "d")) (.assign "d" (.binary .div (.lit 1) (.var "(")))
    let d : Command Int64 :=
      .seq (.print (.var "end")) (.assign "end" (.binary .div (.lit 1) (.var "en(")))
    let s : Store Int64 := .ofList [("d", 7)]
    Function.Injective ρ ∧ ofTokens? ts = some c ∧ ofTokens? (ts.map (Token.rename ρ)) = some d ∧
      c.runIn (Lines.sink none) 4 ⟨s, #[]⟩ = some ⟨some .divisionByZero, s, #["7"]⟩ ∧
      d.runIn (Lines.sink none) 4 ⟨.ofList [("end", 7)], #[]⟩ =
        some ⟨some .divisionByZero, .ofList [("end", 7)], #["7"]⟩ := by
  intro ρ ts c d s
  have hρ : Function.Injective ρ := fun x y h => by simpa [ρ] using h
  have hc : ofTokens? ts = some c := by decide +kernel
  have hs : c.runIn (Lines.sink none) 4 ⟨s, #[]⟩ = some ⟨some .divisionByZero, s, #["7"]⟩ := by cbv
  obtain ⟨hparse, hrun⟩ := ofTokens?_runIn_rename Int64 ρ
  have hd := hparse ts
  have ho := hrun hρ (Lines.sink none) c s #[] 4
  rw [hc] at hd
  rw [hs] at ho
  exact ⟨hρ, hc, hd, hs, ho⟩

end ImpLang
