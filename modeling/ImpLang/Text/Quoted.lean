import ImpLang.Text.Unprintable
import ImpLang.Text.Combining

namespace ImpLang.Text

def codePoint (c : Char) : List Char :=
  ['\\', 'u', '\x7b'] ++ Nat.toDigits 16 c.toNat ++ ['\x7d']

/-- How a character is written between quotes; only the quote in use is escaped. -/
def escape (quote : Char) (c : Char) : List Char :=
  if c = '\x00' then ['\\', '0']
  else if c = '\t' then ['\\', 't']
  else if c = '\r' then ['\\', 'r']
  else if c = '\n' then ['\\', 'n']
  else if c = '\\' || c = quote then ['\\', c]
  else if isCombining c || isUnprintable c then codePoint c
  else [c]

def quoted (quote : Char) (text : List Char) : String :=
  String.ofList (quote :: text.flatMap (escape quote) ++ [quote])

def quotedChar (c : Char) : String := quoted '\x27' [c]

def quotedString (s : String) : String := quoted '\x22' s.toList

end ImpLang.Text
