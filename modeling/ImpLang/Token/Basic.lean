import ImpLang.Text.Quoted

namespace ImpLang

inductive Tag where
  | reserved
  | int
  | id
deriving DecidableEq, Repr

def Tag.render : Tag → String
  | reserved => "RESERVED"
  | int => "INT"
  | id => "ID"

structure Token where
  text : String
  tag : Tag
deriving DecidableEq, Repr

namespace Token

def reserved (text : String) : Token := ⟨text, .reserved⟩

def int (text : String) : Token := ⟨text, .int⟩

def id (text : String) : Token := ⟨text, .id⟩

def render (t : Token) : String :=
  "(" ++ Text.quotedString t.text ++ ", " ++ t.tag.render ++ ")"

end Token

end ImpLang
