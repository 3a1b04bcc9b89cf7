import ImpLang.Text.Position
import ImpLang.Token.Basic

namespace ImpLang

namespace Lexer

def isBlank (c : Char) : Bool := c == ' ' || c == '\t' || c == '\r' || c == '\n'

def isLineEnd (c : Char) : Bool := c == '\r' || c == '\n'

def isWordChar (c : Char) : Bool := c.isAlphanum || c == '_'

def keywords : List String :=
  ["and", "or", "not", "if", "then", "else", "while", "do", "end", "print"]

/-- No symbol stands behind one that begins it. -/
def symbols : List String :=
  [":=", "(", ")", ";", "<=", "<", ">=", ">", "==", "=", "!=", "+", "-", "*", "/"]

def strip? : List Char → List Char → Option (List Char)
  | [], cs => some cs
  | _ :: _, [] => none
  | w :: ws, c :: cs => if w = c then strip? ws cs else none

/-- The rest of a line. A carriage return that no line feed follows ends no line. -/
def lineEnd? (cs : List Char) : Option (List Char) :=
  match cs.dropWhile (!isLineEnd ·) with
  | '\r' :: rest => if rest.head? = some '\n' then some ('\r' :: rest) else none
  | rest => some rest

def trivia? : List Char → Option (List Char)
  | [] => none
  | c :: cs =>
    if isBlank c then some (cs.dropWhile isBlank)
    else if c = '#' then lineEnd? cs
    else none

def symbol? (cs : List Char) : Option (Token × List Char) :=
  symbols.findSome? fun s => (strip? s.toList cs).map (Token.reserved s, ·)

def int? : List Char → Option (Token × List Char)
  | [] => none
  | c :: cs =>
    if c.isDigit then
      some (.int (String.ofList (c :: cs.takeWhile Char.isDigit)), cs.dropWhile Char.isDigit)
    else none

def wordToken (text : String) : Token :=
  if text ∈ keywords then .reserved text else .id text

def word? : List Char → Option (Token × List Char)
  | [] => none
  | c :: cs =>
    if c.isAlpha then
      some (wordToken (String.ofList (c :: cs.takeWhile isWordChar)), cs.dropWhile isWordChar)
    else none

def token? (cs : List Char) : Option (Token × List Char) :=
  symbol? cs <|> int? cs <|> word? cs

/-- One lexeme, with no token for trivia, and the text behind it. -/
def lexeme? (cs : List Char) : Option (Option Token × List Char) :=
  match trivia? cs with
  | some rest => some (none, rest)
  | none => (token? cs).map fun (t, rest) => (some t, rest)

theorem length_dropWhile_le (p : Char → Bool) (cs : List Char) :
    (cs.dropWhile p).length ≤ cs.length :=
  (List.dropWhile_sublist p).length_le

theorem length_of_strip? {ws cs rest : List Char} (h : strip? ws cs = some rest) :
    cs.length = ws.length + rest.length := by
  fun_induction strip? ws cs with
  | case1 => simp_all
  | case2 => simp at h
  | case3 w ws cs ih => have := ih h; simp; omega
  | case4 => simp at h

theorem length_of_lineEnd? {cs rest : List Char} (h : lineEnd? cs = some rest) :
    rest.length ≤ cs.length := by
  have hd := length_dropWhile_le (!isLineEnd ·) cs
  unfold lineEnd? at h
  split at h
  · split at h
    · cases h; simp_all
    · cases h
  · cases h; exact hd

theorem length_of_trivia? {cs rest : List Char} (h : trivia? cs = some rest) :
    rest.length < cs.length := by
  cases cs with
  | nil => simp [trivia?] at h
  | cons c cs =>
    have hd := length_dropWhile_le isBlank cs
    simp only [trivia?] at h
    split at h
    · cases h; simp; omega
    · split at h
      · have := length_of_lineEnd? h; simp; omega
      · cases h

theorem length_of_symbol? {cs rest : List Char} {t : Token} (h : symbol? cs = some (t, rest)) :
    rest.length < cs.length := by
  obtain ⟨s, hs, h⟩ := List.exists_of_findSome?_eq_some h
  obtain ⟨r, hr, h⟩ := Option.map_eq_some_iff.1 h
  have hl := length_of_strip? hr
  have hp : ∀ s ∈ symbols, 0 < s.toList.length := by decide
  have := hp s hs
  cases h
  omega

theorem length_of_int? {cs rest : List Char} {t : Token} (h : int? cs = some (t, rest)) :
    rest.length < cs.length := by
  cases cs with
  | nil => simp [int?] at h
  | cons c cs =>
    have hd := length_dropWhile_le Char.isDigit cs
    simp only [int?] at h
    split at h
    · cases h; simp; omega
    · cases h

theorem length_of_word? {cs rest : List Char} {t : Token} (h : word? cs = some (t, rest)) :
    rest.length < cs.length := by
  cases cs with
  | nil => simp [word?] at h
  | cons c cs =>
    have hd := length_dropWhile_le isWordChar cs
    simp only [word?] at h
    split at h
    · cases h; simp; omega
    · cases h

theorem length_of_token? {cs rest : List Char} {t : Token} (h : token? cs = some (t, rest)) :
    rest.length < cs.length := by
  simp only [token?, Option.orElse_eq_orElse, Option.orElse_eq_or, Option.or_eq_some_iff] at h
  obtain h | ⟨-, h | ⟨-, h⟩⟩ := h
  · exact length_of_symbol? h
  · exact length_of_int? h
  · exact length_of_word? h

theorem length_of_lexeme? {cs rest : List Char} {t : Option Token}
    (h : lexeme? cs = some (t, rest)) : rest.length < cs.length := by
  unfold lexeme? at h
  split at h
  · cases h; exact length_of_trivia? ‹_›
  · obtain ⟨⟨u, r⟩, hu, h⟩ := Option.map_eq_some_iff.1 h
    cases h
    exact length_of_token? hu

def scan (cs : List Char) : Except (List Char) (List Token) :=
  match cs with
  | [] => .ok []
  | c :: cs =>
    match _h : lexeme? (c :: cs) with
    | none => .error (c :: cs)
    | some (t, rest) => (scan rest).map (t.toList ++ ·)
termination_by cs.length
decreasing_by exact length_of_lexeme? _h

end Lexer

structure LexError where
  character : Char
  position : Position
deriving DecidableEq, Repr

namespace LexError

/-- The error at the head of what is left of the source; columns count characters. -/
def ofRest (source rest : List Char) : LexError :=
  ⟨rest.headD '\x00', .ofRest (fun _ => 1) source rest⟩

def message (e : LexError) : String :=
  "illegal character " ++ Text.quotedChar e.character ++ " at " ++ e.position.render

end LexError

def tokenize (source : String) : Except LexError (List Token) :=
  (Lexer.scan source.toList).mapError (LexError.ofRest source.toList)

end ImpLang
