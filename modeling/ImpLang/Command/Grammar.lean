import ImpLang.Command.Basic
import ImpLang.Parser.Precedence

namespace ImpLang.Grammar

inductive Category where
  | arith
  | boolean
  | operand
  | statements
deriving DecidableEq, Repr

abbrev Tree (T : Type) : Category → Type
  | .arith => Arith T
  | .boolean => Boolean T
  | .operand => Boolean T
  | .statements => Command T

abbrev GrammarParser (T : Type) (α : Type) : Type 1 := Parser (Tree T) α

open ImpLang.Parser

variable {T : Type} [Number T]

def number : GrammarParser T T := .filterMap Number.literal? (.tagged .int)

def name : GrammarParser T String := .tagged .id

def arithTerm : GrammarParser T (Arith T) :=
  .alt (.alt (.map Arith.lit number) (.map Arith.var name)) (parens (.rule Category.arith))

def arith : GrammarParser T (Arith T) :=
  precedence ArithOp.symbol Arith.binary arithTerm [[.mul, .div], [.add, .sub]]

def negation : GrammarParser T (Boolean T) :=
  .map (fun (_, b) => .not b) (.seq (reserved "not") (.rule Category.operand))

/-- Equality has two spellings. -/
def relation : GrammarParser T Relation :=
  .map Prod.snd (oneOf Prod.fst ("<", Relation.lt)
    [("<=", .le), (">", .gt), (">=", .ge), ("=", .eq), ("==", .eq), ("!=", .ne)])

def comparison : GrammarParser T (Boolean T) :=
  .map (fun ((l, r), e) => .compare r l e) (.seq (.seq arith relation) arith)

def booleanTerm : GrammarParser T (Boolean T) :=
  .alt (.alt negation comparison) (parens (.rule Category.boolean))

def boolean : GrammarParser T (Boolean T) :=
  precedence Connective.symbol Boolean.binary booleanTerm [[.and], [.or]]

def assignment : GrammarParser T (Command T) :=
  .map (fun ((x, _), e) => .assign x e) (.seq (.seq name (reserved ":=")) arith)

def conditional : GrammarParser T (Command T) :=
  .map (fun (((((_, b), _), c), other), _) =>
      match other with
      | none => .ifThen b c
      | some (_, d) => .ifElse b c d)
    (.seq (.seq (.seq (.seq (.seq (reserved "if") boolean) (reserved "then")) (.rule Category.statements))
      (.opt (.seq (reserved "else") (.rule Category.statements)))) (reserved "end"))

def loop : GrammarParser T (Command T) :=
  .map (fun ((((_, b), _), c), _) => .loop b c)
    (.seq (.seq (.seq (.seq (reserved "while") boolean) (reserved "do")) (.rule Category.statements))
      (reserved "end"))

def printing : GrammarParser T (Command T) :=
  .map (fun (_, e) => .print e) (.seq (reserved "print") arith)

def statement : GrammarParser T (Command T) :=
  .alt (.alt (.alt assignment conditional) loop) printing

def statements : GrammarParser T (Command T) :=
  .sepBy statement (.map (fun _ => .seq) (reserved ";"))

def program : GrammarParser T (Command T) := .whole statements

def rules : Rules (Tree T)
  | .arith => arith
  | .boolean => boolean
  | .operand => booleanTerm
  | .statements => statements

/-- The match of a parser of the grammar from a position. Rules nest only behind a token that has
been used up, so the number of tokens bounds the depth. -/
def parseAt {α : Type} (p : GrammarParser T α) (ts : Array Token) (pos : Nat) : Reply α :=
  (run rules ts (ts.size - pos) p pos).value?.join

end ImpLang.Grammar
