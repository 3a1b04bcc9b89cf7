import ImpLang.Proofs.Grammar.Longest
import ImpLang.Proofs.Parser.Ascent
import ImpLang.Proofs.Parser.OperatorText

namespace ImpLang

def Relation.ofText? : String → Option Relation
  | "<" => some .lt
  | "<=" => some .le
  | ">" => some .gt
  | ">=" => some .ge
  | "=" => some .eq
  | "==" => some .eq
  | "!=" => some .ne
  | _ => none

namespace Grammar

open ImpLang.Parser (Ascends LooksUp Replies)

/-- How an operator joins what stands before it and behind it, by the text of the operator. -/
def Kind.join? {T : Type} : (κ : Kind) → String → Option (κ.Value T → κ.Value T → κ.Value T)
  | arith, "+" => some (Arith.binary .add)
  | arith, "-" => some (Arith.binary .sub)
  | arith, "*" => some (Arith.binary .mul)
  | arith, "/" => some (Arith.binary .div)
  | boolean, "and" => some (Boolean.binary .and)
  | boolean, "or" => some (Boolean.binary .or)
  | command, ";" => some Command.seq
  | _, _ => none

def Level.texts : {κ : Kind} → Level κ → List String
  | _, product => ["*", "/"]
  | _, sum => ["+", "-"]
  | _, conjunction => ["and"]
  | _, disjunction => ["or"]
  | _, sequence => [";"]

def relationTexts : List String := ["<", "<=", ">", ">=", "=", "==", "!="]

theorem separator_consumes {T : Type} {κ : Kind} (l : Level κ) :
    Parser.consumes (fun _ => true) (l.separator (T := T)) = true := by
  cases l <;> rfl

variable {T : Type} [Number T] {κ : Kind} {ts : Array Token}

theorem separator_looksUp (l : Level κ) :
    LooksUp (rules (T := T)) ts κ.join? l.texts l.separator := by
  cases l with
  | product | sum => exact Parser.looksUp_oneOf rfl (by simp [Kind.join?, ArithOp.symbol])
  | conjunction | disjunction =>
    exact Parser.looksUp_oneOf rfl (by simp [Kind.join?, Connective.symbol])
  | sequence => exact Parser.looksUp_reserved rfl

theorem relation_looksUp :
    LooksUp (rules (T := T)) ts Relation.ofText? relationTexts relation :=
  Parser.looksUp_oneOf rfl (by decide)

/-- The list is read in rounds of an operator and an element behind it, and each round uses up at
least two tokens. -/
def RoundsClimb (T : Type) [Number T] (ts : Array Token) (l : Level κ) : Prop :=
  (Symbol.list l).parser (T := T) = .sepBy l.element.parser l.separator ∧
    ∀ depth pos after next join right,
      Replies (rules (T := T)) ts depth l.separator pos (some (after, join)) →
      Replies (rules (T := T)) ts depth l.element.parser after (some (next, right)) →
      pos + 2 ≤ next ∧ next ≤ ts.size

theorem parser_consumes (k : Symbol κ) :
    Parser.consumes (fun _ => true) (k.parser (T := T)) = true := by
  cases k with
  | factor | operand | statement => rfl
  | list l => cases l <;> rfl

theorem roundsClimb (l : Level κ) : RoundsClimb T ts l := by
  refine ⟨parser_list l, ?_⟩
  intro depth pos after next join right hs he
  have hafter := (hs.bounds headway).2.2 (separator_consumes l)
  have hnext := (he.bounds headway).2.2 (parser_consumes l.element)
  omega

theorem symbol_ascends (k : Symbol κ) (ts : Array Token) (start : Nat) :
    Ascends (rules (T := T)) ts k.parser start :=
  Parser.ascends_of_guarded headway (parser_guarded k) (parser_consumes k) ts start

/-- From every position, the parsers of the grammar end without a call that does not climb up the
tokens, whatever the tokens are. Every round of a list uses up two tokens, and no operator is read
that the tables of the operators do not have. -/
theorem parsers_ascend (T : Type) [Number T] (ts : Array Token) (start : Nat) :
    Ascends (rules (T := T)) ts arith start ∧
    Ascends (rules (T := T)) ts boolean start ∧
    Ascends (rules (T := T)) ts statements start ∧
    Ascends (rules (T := T)) ts program start ∧
    (∀ {κ : Kind} (l : Level κ), RoundsClimb T ts l) ∧
    (∀ {κ : Kind} (l : Level κ), LooksUp (rules (T := T)) ts κ.join? l.texts l.separator) ∧
    LooksUp (rules (T := T)) ts Relation.ofText? relationTexts relation := by
  have hg : Parser.guarded (fun _ => true) false (program (T := T)) = true :=
    parser_guarded Symbol.statements
  have hc : Parser.consumes (fun _ => true) (program (T := T)) = true :=
    parser_consumes Symbol.statements
  have hprogram := Parser.ascends_of_guarded headway hg hc ts start
  refine ⟨symbol_ascends .aexp ts start, symbol_ascends .bexp ts start, ?_, hprogram, ?_, ?_, ?_⟩
  · exact symbol_ascends .statements ts start
  · exact roundsClimb
  · exact separator_looksUp
  · exact relation_looksUp

end Grammar

end ImpLang
