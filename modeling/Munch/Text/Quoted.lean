import Munch.Text.Printable

/-! Quoted texts and characters for messages: a mark on both ends, a backslash before
the mark and before itself, short forms for the common controls, and the code in
hexadecimal without leading zeros for every other character that would not show. -/
namespace Munch.Text

def codeEscape (ch : Char) : List Char :=
  ['\\','u','\x7b'] ++ Nat.toDigits 16 ch.toNat ++ ['\x7d']

def escape (mark ch : Char) : List Char :=
  if ch = '\x00' then ['\\','0']
  else if ch = '\t' then ['\\','t']
  else if ch = '\r' then ['\\','r']
  else if ch = '\n' then ['\\','n']
  else if ch = '\\' ∨ ch = mark then ['\\',ch]
  else if isPrintable ch then [ch]
  else codeEscape ch

def quoted (text : String) : String :=
  String.ofList ('"' :: text.toList.flatMap (escape '"') ++ ['"'])

def quotedChar (ch : Char) : String :=
  String.ofList ('\'' :: escape '\'' ch ++ ['\''])

end Munch.Text
