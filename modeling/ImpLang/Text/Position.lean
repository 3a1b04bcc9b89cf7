namespace ImpLang

structure Position where
  line : Nat
  column : Nat
deriving DecidableEq, Repr

namespace Position

def start : Position := ⟨1, 1⟩

/-- A line feed starts a new line, every other character moves on by its width. -/
def advance (width : Char → Nat) (p : Position) (c : Char) : Position :=
  if c = '\n' then ⟨p.line + 1, 1⟩ else ⟨p.line, p.column + width c⟩

def after (width : Char → Nat) (text : List Char) : Position :=
  text.foldl (advance width) start

def ofRest (width : Char → Nat) (source rest : List Char) : Position :=
  after width (source.take (source.length - rest.length))

def render (p : Position) : String :=
  "line " ++ toString p.line ++ ", column " ++ toString p.column

@[simp] theorem after_nil (width : Char → Nat) : after width [] = start := rfl

theorem after_append_singleton (width : Char → Nat) (text : List Char) (c : Char) :
    after width (text ++ [c]) = advance width (after width text) c := by
  simp [after]

end Position

end ImpLang
