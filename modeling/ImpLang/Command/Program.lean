import ImpLang.Command.Grammar
import ImpLang.Token.Lexer

namespace ImpLang

inductive SyntaxError where
  | lexical (e : LexError)
  | grammatical
deriving DecidableEq, Repr

def SyntaxError.message : SyntaxError → String
  | lexical e => e.message
  | grammatical => "program does not match the IMP grammar"

namespace Command

variable {T : Type} [Number T]

def ofTokens? (ts : Array Token) : Option (Command T) :=
  (Grammar.parseAt Grammar.program ts 0).map Prod.snd

def ofSource (source : String) : Except SyntaxError (Command T) :=
  match tokenize source with
  | .error e => .error (.lexical e)
  | .ok ts =>
    match ofTokens? ts.toArray with
    | none => .error .grammatical
    | some c => .ok c

end Command

end ImpLang
