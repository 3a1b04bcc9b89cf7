import ImpLang.Proofs.Grammar.Longest
import ImpLang.Proofs.Parser.Shift

namespace ImpLang.Grammar

open ImpLang.Parser (NeverLooksBack NoCallLooksBack WellFormed noCallLooksBack_of_guarded)

variable {T : Type} [Number T] {κ : Kind} {α : Type} {ts : Array Token} {pos : Nat}

theorem symbol_noCallLooksBack (k : Symbol κ) (h : pos ≤ ts.size) :
    NoCallLooksBack (rules (T := T)) ts k.parser pos :=
  noCallLooksBack_of_guarded headway (parser_guarded k) h

theorem program_noCallLooksBack (h : pos ≤ ts.size) :
    NoCallLooksBack (rules (T := T)) ts program pos := by
  have hg : Parser.guarded (fun _ => true) false (program (T := T)) = true :=
    parser_guarded Symbol.statements
  exact noCallLooksBack_of_guarded headway hg h

theorem parseAt_shift (h : pos ≤ ts.size) (p : GrammarParser T α) :
    parseAt p ts pos = Reply.shift pos (parseAt p (ts.drop pos) 0) := by
  have hsize : (ts.drop pos).size - 0 = ts.size - pos := by
    rw [Array.size_extract, Nat.min_self, Nat.sub_zero]
  have hrun : Parser.run rules ts (ts.size - pos) p pos = _ := Parser.run_shift h _ p 0
  rw [parseAt, parseAt, hsize, hrun, Trace.value?_shift]
  rcases (Parser.run rules (ts.drop pos) (ts.size - pos) p 0).value? with _ | r <;> rfl

/-- Parsers never look back: at a position they do what they do at the start of the tokens from
there on. So do the parsers of the grammar. -/
theorem parsers_neverLookBack (ts : Array Token) (pos : Nat) (h : pos ≤ ts.size) :
    (∀ {ι : Type} {τ : ι → Type} {rules : Rules τ} {used : ι → Prop} {α : Type} {p : Parser τ α},
      WellFormed rules used p → NeverLooksBack rules ts p pos) ∧
    ∀ (T : Type) [Number T],
      NoCallLooksBack (rules (T := T)) ts arith pos ∧
      NoCallLooksBack (rules (T := T)) ts boolean pos ∧
      NoCallLooksBack (rules (T := T)) ts statements pos ∧
      NoCallLooksBack (rules (T := T)) ts program pos ∧
      ∀ {α : Type} (p : GrammarParser T α),
        parseAt p ts pos = Reply.shift pos (parseAt p (ts.drop pos) 0) := by
  refine ⟨fun hp => hp.neverLooksBack h, fun T _ => ⟨?_, ?_, ?_, ?_, fun p => parseAt_shift h p⟩⟩
  · exact symbol_noCallLooksBack .aexp h
  · exact symbol_noCallLooksBack .bexp h
  · exact symbol_noCallLooksBack .statements h
  · exact program_noCallLooksBack h

def probedRules : Rules (Tree Int64)
  | .arith => .probe "arith" arith
  | .boolean => .probe "boolean" boolean
  | .operand => .probe "operand" booleanTerm
  | .statements => .probe "statements" statements

/-- At the second statement of a program: for a parser that wants all tokens, and for the program
with the calls of the rules in it. -/
theorem parsers_neverLookBack_print :
    let ts := #[.id "x", .reserved ";", .reserved "print", .reserved "(", .int "1", .reserved "+",
      .id "y", .reserved ")"]
    let p : GrammarParser Int64 (String × Arith Int64) :=
      .whole (.seq (Parser.reserved "print") (.rule Category.arith))
    2 ≤ ts.size ∧ WellFormed rules (fun _ => True) p ∧ NeverLooksBack rules ts p 2 ∧
      (∀ i, (probedRules i).unprobed = rules i) ∧ NeverLooksBack probedRules ts program 2 := by
  intro ts p
  have hp : WellFormed rules (fun _ => True) p := Parser.wellFormed_of_guarded headway rfl
  have hprobed : ∀ i, (probedRules i).unprobed = rules i := by
    intro i
    cases i <;> rfl
  have h := parsers_neverLookBack ts 2 (by decide)
  exact ⟨by decide, hp, h.1 hp, hprobed, (h.2 Int64).2.2.2.1.probed probedRules program hprobed rfl⟩

end ImpLang.Grammar
