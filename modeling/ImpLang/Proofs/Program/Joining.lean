import Mathlib
import ImpLang.Proofs.Command.Sequence
import ImpLang.Proofs.Program.Canonical

namespace ImpLang

open Grammar Lexer

variable {T : Type} [Number T]

namespace Grammar.Phrase

def append (d : Phrase T .statements) : Phrase T .statements → Phrase T .statements
  | one e => .more d ⟨(), List.mem_singleton_self _⟩ e
  | more front o last => .more (append d front) o last

theorem word_append (d : Phrase T .statements) : (e : Phrase T .statements) →
    (d.append e).word = d.word ++ .reserved ";" :: e.word
  | one e => by
    simp only [append, word]
    rfl
  | more front o last => by
    simp only [append, word, word_append d front, List.append_assoc, List.cons_append]

theorem statements_of_statement (d : Phrase T .statement) :
    Command.statements d.value = [d.value] := by
  cases d <;> rfl

theorem append_statement (c : Command T) (d : Phrase T .statement) :
    c.append d.value = .seq c d.value := by
  simp only [Command.append, statements_of_statement, List.foldl_cons, List.foldl_nil]

theorem value_append (d : Phrase T .statements) : (e : Phrase T .statements) →
    (d.append e).value = Command.append d.value e.value
  | one e => by
    simp only [append, value]
    exact (append_statement d.value e).symm
  | more front o last => by
    simp only [append, value, value_append d front]
    calc
      _ = Command.append (Command.append d.value front.value) last.value :=
        (append_statement _ last).symm
      _ = Command.append d.value (.seq front.value last.value) :=
        (Command.append_seq d.value front.value last.value).symm

end Grammar.Phrase

theorem Grammar.Derives.append {v w : List Token} {c d : Command T}
    (hc : Derives .statements v c) (hd : Derives .statements w d) :
    Derives .statements (v ++ .reserved ";" :: w) (c.append d) := by
  obtain ⟨p, rfl, rfl⟩ := hc
  obtain ⟨q, rfl, rfl⟩ := hd
  exact ⟨p.append q, p.word_append q, p.value_append q⟩

theorem Lexer.munches_separator {cs ds : List Char} {ts us : List Token} (hc : Munches cs ts)
    (hd : Munches ds us) : Munches (cs ++ '\n' :: ';' :: '\n' :: ds) (ts ++ .reserved ";" :: us) := by
  have hs : Munches [';'] [.reserved ";"] :=
    munches_singleton (t := .reserved ";") (.inr (by decide))
  exact hc.append_line (hs.append_line hd)

namespace Command

theorem ofSource_append {a b : String} {c d : Command T} (ha : ofSource a = .ok c)
    (hb : ofSource b = .ok d) : ofSource (a ++ "\n;\n" ++ b) = .ok (c.append d) := by
  obtain ⟨ts, hts, hc⟩ := ofSource_eq_ok.1 ha
  obtain ⟨us, hus, hd⟩ := ofSource_eq_ok.1 hb
  refine ofSource_eq_ok.2 ⟨_, ?_, hc.append hd⟩
  rw [String.toList_append, String.toList_append, List.append_assoc]
  exact munches_separator hts hus

/-- Programs whose source texts stand one after the other run in turn, into any output. -/
theorem ofSource_append_runs (T : Type) [Number T] (a b : String) (c d : Command T)
    (ha : ofSource a = .ok c) (hb : ofSource b = .ok d) :
    ofSource (a ++ "\n;\n" ++ b) = .ok (d.statements.foldl seq c) ∧
    ∀ {W : Type} (sink : Sink W) (w : World T W) (o : Outcome T W),
      (∃ steps, (d.statements.foldl seq c).runIn sink steps w = some o) ↔
        (∃ u, (∃ steps, c.runIn sink steps w = some ⟨none, u⟩) ∧
          ∃ steps, d.runIn sink steps u = some o) ∨
        ∃ f u, (∃ steps, c.runIn sink steps w = some ⟨some f, u⟩) ∧ o = ⟨some f, u⟩ := by
  refine ⟨ofSource_append ha hb, fun sink w o => ?_⟩
  have run (e : Command T) (w : World T _) (o : Outcome T _) :
      (∃ steps, e.runIn sink steps w = some o) ↔ Executes sink e w o := halts_singleton_iff
  simp only [run]
  rw [← executes_seq_iff]
  exact append_equivalent c d w o

/-- The comment that ends the first text does not reach the second one, and the fault of the first
program keeps the second one from printing. -/
theorem ofSource_append_faulting :
    ofSource ("x := 7; y := x / 0 # half" ++ "\n;\n" ++ "print x") =
      .ok (.seq (.seq (.assign "x" (.lit (7 : Int64)))
        (.assign "y" (.binary .div (.var "x") (.lit 0)))) (.print (.var "x"))) ∧
    ∃ steps, (Command.seq (.seq (.assign "x" (.lit (7 : Int64)))
        (.assign "y" (.binary .div (.var "x") (.lit 0)))) (.print (.var "x"))).runIn
          (Lines.sink none) steps (.ofStore .empty) =
      some ⟨some .divisionByZero, .ofStore (.ofList [("x", 7)])⟩ := by
  have ha : ofSource "x := 7; y := x / 0 # half" = .ok (.seq (.assign "x" (.lit (7 : Int64)))
      (.assign "y" (.binary .div (.var "x") (.lit 0)))) := by decide +kernel
  have hb : ofSource "print x" = .ok (.print (.var "x") : Command Int64) := by decide +kernel
  have h := ofSource_append_runs Int64 _ _ _ _ ha hb
  exact ⟨h.1, (h.2 _ _ _).2 (.inr ⟨_, _, ⟨4, by cbv⟩, rfl⟩)⟩

end Command

end ImpLang
