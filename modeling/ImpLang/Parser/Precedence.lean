import ImpLang.Parser.Basic

namespace ImpLang.Parser

variable {ι : Type} {τ : ι → Type} {α ω : Type}

def reserved (text : String) : Parser τ String := .token text .reserved

def parens (inner : Parser τ α) : Parser τ α :=
  .map (fun ((_, a), _) => a) (.seq (.seq (reserved "(") inner) (reserved ")"))

def symbolFor (symbol : ω → String) (o : ω) : Parser τ ω := .map (fun _ => o) (reserved (symbol o))

def choice (first : Parser τ α) (others : List (Parser τ α)) : Parser τ α :=
  others.foldl .alt first

def oneOf (symbol : ω → String) (first : ω) (others : List ω) : Parser τ ω :=
  choice (symbolFor symbol first) (others.map (symbolFor symbol))

/-- Operands joined by operators. The levels stand from the tightest to the loosest, and each is
a list whose elements are the expressions of the levels before it. -/
def precedence (symbol : ω → String) (join : ω → α → α → α) (operand : Parser τ α) :
    List (List ω) → Parser τ α
  | [] => operand
  | [] :: levels => precedence symbol join operand levels
  | (o :: os) :: levels =>
    precedence symbol join (.sepBy operand (.map join (oneOf symbol o os))) levels

end ImpLang.Parser
