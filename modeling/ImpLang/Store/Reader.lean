import ImpLang.Store.Basic
import ImpLang.Token.Lexer

namespace ImpLang

namespace Store

inductive ValueError (P : Type) where
  | noDigit (place : P)
  | tooLarge
  | tooSmall
deriving DecidableEq, Repr

inductive ReadError (P : Type) where
  | noOpeningBrace (place : P)
  | noClosingBrace (place : P)
  | textBehind (place : P)
  | badValue (binding value : P) (cause : ValueError P)
deriving DecidableEq, Repr

def ReadError.map {P Q : Type} (f : P → Q) : ReadError P → ReadError Q
  | noOpeningBrace p => noOpeningBrace (f p)
  | noClosingBrace p => noClosingBrace (f p)
  | textBehind p => textBehind (f p)
  | badValue b v (.noDigit p) => badValue (f b) (f v) (.noDigit (f p))
  | badValue b v .tooLarge => badValue (f b) (f v) .tooLarge
  | badValue b v .tooSmall => badValue (f b) (f v) .tooSmall

def ValueError.message (value : Position) : ValueError Position → String
  | noDigit p => "expected an ascii digit at " ++ p.render
  | tooLarge =>
    "external error:\n  number too large to fit in target type at " ++ value.render
  | tooSmall =>
    "external error:\n  number too small to fit in target type at " ++ value.render

def ReadError.message : ReadError Position → String
  | noOpeningBrace p => "error in Tag at " ++ p.render
  | noClosingBrace p =>
    "in section \"expected closing brace\" at " ++ p.render ++ ",\nerror in Tag at " ++ p.render
  | textBehind p => "expected eof at " ++ p.render
  | badValue b v cause =>
    "in section \"expected name-value binding\" at " ++ b.render ++
      ",\nin section \"expected a signed 64-bit integer\" at " ++ v.render ++ ",\n" ++
      cause.message v

namespace Reader

open Lexer

def skipBlanks (cs : List Char) : List Char := cs.dropWhile isBlank

def name? : List Char → Option (String × List Char)
  | [] => none
  | c :: cs =>
    if c.isAlpha then
      some (String.ofList (c :: cs.takeWhile isWordChar), cs.dropWhile isWordChar)
    else none

/-- What follows the mark and the blanks on both sides of it. -/
def mark? (mark : Char) (cs : List Char) : Option (List Char) :=
  match skipBlanks cs with
  | [] => none
  | c :: rest => if c = mark then some (skipBlanks rest) else none

/-- A value with its sign and digits. Places are given by the text that begins there. -/
def magnitude (negative : Bool) (cs : List Char) :
    Except (ValueError (List Char)) (Int64 × List Char) :=
  match Literal.digits? (cs.takeWhile Char.isDigit) with
  | none => .error (.noDigit cs)
  | some n =>
    match Number.int64? (if negative then -(n : Int) else n) with
    | some v => .ok (v, cs.dropWhile Char.isDigit)
    | none => .error (if negative then .tooSmall else .tooLarge)

def value : List Char → Except (ValueError (List Char)) (Int64 × List Char)
  | '-' :: cs => magnitude true cs
  | cs => magnitude false cs

def binding? (cs : List Char) :
    Except (ReadError (List Char)) (Option ((String × Int64) × List Char)) :=
  match name? cs with
  | none => .ok none
  | some (x, rest) =>
    match mark? ':' rest with
    | none => .ok none
    | some start =>
      match value start with
      | .ok (v, rest) => .ok (some ((x, v), rest))
      | .error cause => .error (.badValue cs start cause)

theorem length_of_name? {cs rest : List Char} {x : String} (h : name? cs = some (x, rest)) :
    rest.length < cs.length := by
  cases cs with
  | nil => simp [name?] at h
  | cons c cs =>
    have hd := length_dropWhile_le isWordChar cs
    simp only [name?] at h
    split at h
    · cases h; simp; omega
    · cases h

theorem length_of_mark? {mark : Char} {cs rest : List Char} (h : mark? mark cs = some rest) :
    rest.length < cs.length := by
  have hd := length_dropWhile_le isBlank cs
  unfold mark? skipBlanks at h
  split at h
  · cases h
  · rename_i c rest' hc
    split at h
    · cases h
      have hr := length_dropWhile_le isBlank rest'
      rw [hc] at hd
      simp at hd
      omega
    · cases h

theorem length_of_value {cs rest : List Char} {v : Int64} (h : value cs = .ok (v, rest)) :
    rest.length ≤ cs.length := by
  have hm : ∀ negative ds, magnitude negative ds = .ok (v, rest) → rest.length ≤ ds.length := by
    intro negative ds h
    have hd := length_dropWhile_le Char.isDigit ds
    unfold magnitude at h
    split at h
    · cases h
    · split at h
      · cases h; exact hd
      · cases h
  unfold value at h
  split at h
  · have := hm _ _ h; simp; omega
  · exact hm _ _ h

theorem length_of_binding? {cs rest : List Char} {b : String × Int64}
    (h : binding? cs = .ok (some (b, rest))) : rest.length < cs.length := by
  unfold binding? at h
  split at h
  · cases h
  · rename_i x after hx
    have := length_of_name? hx
    split at h
    · cases h
    · rename_i start hs
      have := length_of_mark? hs
      split at h
      · rename_i v rest' hv
        have := length_of_value hv
        cases h
        omega
      · cases h

/-- The bindings behind one, each after a comma. A comma without a binding behind it is left alone.
-/
def moreBindings (cs : List Char) :
    Except (ReadError (List Char)) (List (String × Int64) × List Char) :=
  match _hc : mark? ',' cs with
  | none => .ok ([], cs)
  | some next =>
    match _hb : binding? next with
    | .error e => .error e
    | .ok none => .ok ([], cs)
    | .ok (some (b, rest)) => (moreBindings rest).map fun (bs, stop) => (b :: bs, stop)
termination_by cs.length
decreasing_by
  have := length_of_mark? _hc
  have := length_of_binding? _hb
  omega

def bindings (cs : List Char) :
    Except (ReadError (List Char)) (List (String × Int64) × List Char) :=
  match binding? cs with
  | .error e => .error e
  | .ok none => .ok ([], cs)
  | .ok (some (b, rest)) => (moreBindings rest).map fun (bs, stop) => (b :: bs, stop)

def braces : List Char → Except (ReadError (List Char)) (List (String × Int64))
  | '\x7b' :: cs =>
    match bindings (skipBlanks cs) with
    | .error e => .error e
    | .ok (bs, rest) =>
      match skipBlanks rest with
      | ['\x7d'] => .ok bs
      | '\x7d' :: rest => .error (.textBehind rest)
      | rest => .error (.noClosingBrace rest)
  | cs => .error (.noOpeningBrace cs)

end Reader

def read (text : String) : Except (ReadError Position) (Store Int64) :=
  match Reader.braces text.toList with
  | .ok bs => .ok (ofList bs)
  | .error e => .error (e.map (.ofRest Char.utf8Size text.toList))

end Store

end ImpLang
