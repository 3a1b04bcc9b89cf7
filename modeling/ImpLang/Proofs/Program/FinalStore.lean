import Mathlib
import ImpLang.Proofs.Command.Targets
import ImpLang.Proofs.Program.Canonical
import ImpLang.Proofs.Store.RoundTrip

namespace ImpLang

namespace Command

theorem Canonical.isWord_of_mem_targets {T : Type} [Number T] {c : Command T} (h : c.Canonical) :
    ∀ x ∈ c.targets, Lexer.IsWord x.toList := by
  induction c with
  | assign x e => simpa [targets] using Lexer.isWord_of_isLexeme_id h.1
  | seq c d ihc ihd => exact List.forall_mem_append.2 ⟨ihc h.1, ihd h.2.1⟩
  | ifThen b c ih => exact ih h.2
  | ifElse b c d ihc ihd => exact List.forall_mem_append.2 ⟨ihc h.2.1, ihd h.2.2⟩
  | loop b c ih => exact ih h.2
  | print e => simp [targets]

end Command

theorem Executes.hasWords {T W : Type} [Number T] {sink : Sink W} {c : Command T}
    {w : World T W} {o : Outcome T W} (h : Executes sink c w o) (hc : c.Canonical)
    (hw : w.store.HasWords) : o.world.store.HasWords := by
  intro x hx
  obtain hx | hx := h.mem_names hx
  · exact hw x hx
  · exact hc.isWord_of_mem_targets x hx

/-- However a program ends that was run from a written store, or from the empty one, the store that
it leaves binds words only and is read back from the text that shows it. -/
theorem read_render_of_run {W : Type} {sink : Sink W} {source : String} {c : Command Int64}
    {s : Store Int64} {printed : W} {steps : Nat} {o : Outcome Int64 W}
    (hc : Command.ofSource source = .ok c)
    (hs : s = .empty ∨ ∃ text, Store.read text = .ok s)
    (ho : c.runIn sink steps ⟨s, printed⟩ = some o) :
    (∀ x ∈ o.world.store.names, Lexer.IsWord x.toList) ∧
      Store.read o.world.store.render = .ok o.world.store := by
  have hcanonical := Command.canonical_of_ofSource hc
  have hstart : s.HasWords := by
    obtain rfl | ⟨text, ht⟩ := hs
    · exact Store.hasWords_empty
    · exact Store.hasWords_of_read ht
  have hend : o.world.store.HasWords :=
    (halts_singleton_iff.1 ⟨steps, ho⟩).hasWords hcanonical hstart
  exact ⟨hend, Store.read_render hend⟩

/-- A program that comes to the smallest number and faults on the next division. -/
theorem read_render_of_faulting_run :
    ∃ c o, Command.ofSource "lo := x - 1; lo := lo / B_2" = .ok c ∧
      c.runIn (Lines.sink none) 4
        ⟨.ofList [("x", -9223372036854775807), ("B_2", -1)], #[]⟩ = some o ∧
      o.fault = some (.overflow .div) ∧
      o.world.store.render = "\x7b B_2: -1, lo: -9223372036854775808, x: -9223372036854775807 \x7d" ∧
      Store.read o.world.store.render = .ok o.world.store := by
  have hc : Command.ofSource "lo := x - 1; lo := lo / B_2" =
      .ok (.seq (.assign "lo" (.binary .sub (.var "x") (.lit (1 : Int64))))
        (.assign "lo" (.binary .div (.var "lo") (.var "B_2")))) := by decide +kernel
  have hs : Store.read "\x7bx :-9223372036854775807 , B_2:-007,B_2:-1\x7d" =
      .ok (Store.ofList [("x", -9223372036854775807), ("B_2", -1)]) := by decide +kernel
  have ho : (Command.seq (.assign "lo" (.binary .sub (.var "x") (.lit (1 : Int64))))
        (.assign "lo" (.binary .div (.var "lo") (.var "B_2")))).runIn (Lines.sink none) 4
          ⟨.ofList [("x", -9223372036854775807), ("B_2", -1)], #[]⟩ =
      some ⟨some (.overflow .div),
        ⟨.ofList [("x", -9223372036854775807), ("B_2", -1), ("lo", Int64.minValue)], #[]⟩⟩ := by cbv
  exact ⟨_, _, hc, ho, rfl, rfl, (read_render_of_run hc (.inr ⟨_, hs⟩) ho).2⟩

end ImpLang
