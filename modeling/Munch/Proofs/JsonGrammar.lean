import Munch.Json.Value

/-! JSON texts by their grammar, apart from any reader. Each relation is between a text and what
is left of it when something has been spelled at its front. The two units of a surrogate pair
come one after the other in a string, or it does not decode. -/
namespace Munch.Json

def blanks : List Char := [' ','\t','\n','\r']

inductive Blanks : List Char → List Char → Prop where
  | none (w) : Blanks w w
  | more {ch w rest} (blank : ch ∈ blanks) (others : Blanks w rest) : Blanks (ch::w) rest

abbrev IsDigit (ch : Char) : Prop := '0' ≤ ch ∧ ch ≤ '9'

inductive Digits : List Char → List Char → Prop where
  | none (w) : Digits w w
  | more {ch w rest} (digit : IsDigit ch) (others : Digits w rest) : Digits (ch::w) rest

/- No digit follows a leading zero. -/
inductive Whole : List Char → List Char → Prop where
  | zero (rest) : Whole ('0' :: rest) rest
  | positive {ch w rest} (digit : IsDigit ch) (leading : ch ≠ '0') (others : Digits w rest) :
      Whole (ch::w) rest

inductive Fraction : List Char → List Char → Prop where
  | none (w) : Fraction w w
  | some {ch w rest} (digit : IsDigit ch) (others : Digits w rest) : Fraction ('.' :: ch::w) rest

inductive Sign : List Char → List Char → Prop where
  | none (w) : Sign w w
  | plus (w) : Sign ('+' :: w) w
  | minus (w) : Sign ('-' :: w) w

inductive Exponent : List Char → List Char → Prop where
  | none (w) : Exponent w w
  | some {mark w ch v rest} (marks : mark = 'e' ∨ mark = 'E') (sign : Sign w (ch::v))
      (digit : IsDigit ch) (others : Digits v rest) : Exponent (mark::w) rest

inductive Unsigned : List Char → List Char → Prop where
  | parts {w a b rest} (whole : Whole w a) (fraction : Fraction a b) (exponent : Exponent b rest) :
      Unsigned w rest

inductive Number : List Char → List Char → Prop where
  | plain {w rest} (digits : Unsigned w rest) : Number w rest
  | negative {w rest} (digits : Unsigned w rest) : Number ('-' :: w) rest

/- What an escaped letter stands for. -/
def escapes : List (Char × Char) :=
  [('"','"'),('\\','\\'),('/','/'),('b','\x08'),('f','\x0c'),('n','\n'),('r','\r'),('t','\t')]

def HexDigit (ch : Char) (n : Nat) : Prop :=
  n < 16 ∧ (ch = Nat.digitChar n ∨ ch = (Nat.digitChar n).toUpper)

/- A character, or a unit of UTF-16 that is given by its number. -/
inductive Glyph where
  | char (ch : Char)
  | unit (n : Nat)

/- The glyphs of a string and its closing quote. -/
inductive Glyphs : List Glyph → List Char → List Char → Prop where
  | close (rest) : Glyphs [] ('"' :: rest) rest
  | plain {ch gs w rest} (quote : ch ≠ '"') (backslash : ch ≠ '\\') (printable : ' ' ≤ ch)
      (others : Glyphs gs w rest) : Glyphs (.char ch::gs) (ch::w) rest
  | short {letter ch gs w rest} (escape : (letter,ch) ∈ escapes) (others : Glyphs gs w rest) :
      Glyphs (.char ch::gs) ('\\' :: letter::w) rest
  | unit {a b c d i j k l gs w rest} (first : HexDigit a i) (second : HexDigit b j)
      (third : HexDigit c k) (fourth : HexDigit d l) (others : Glyphs gs w rest) :
      Glyphs (.unit (((i*16+j)*16+k)*16+l)::gs) ('\\' :: 'u' :: a::b::c::d::w) rest

abbrev IsHigh (n : Nat) : Prop := 0xD800 ≤ n ∧ n ≤ 0xDBFF
abbrev IsLow (n : Nat) : Prop := 0xDC00 ≤ n ∧ n ≤ 0xDFFF

def paired (high low : Nat) : Char := Char.ofNat (0x10000+(high-0xD800)*0x400+(low-0xDC00))

def decode : List Glyph → Option (List Char)
  | [] => some []
  | .char ch::gs => (decode gs).map (ch::·)
  | .unit n::gs =>
    if IsLow n then none
    else if IsHigh n then match gs with
      | .unit low::gs => if IsLow low then (decode gs).map (paired n low::·) else none
      | _ => none
    else (decode gs).map (Char.ofNat n::·)

def textOf (gs : List Glyph) : Option String := (decode gs).map String.ofList

/- What can be spelled; items and members come with the blanks around them. -/
inductive Part where
  | value (v : Value)
  | item (v : Value)
  | items (vs : List Value)
  | member (name : Option String) (v : Value)
  | members (ms : List (Option String × Value))

inductive Spelled : Part → List Char → List Char → Prop where
  | null (rest) : Spelled (.value .null) ('n' :: 'u' :: 'l' :: 'l' :: rest) rest
  | yes (rest) : Spelled (.value (.flag true)) ('t' :: 'r' :: 'u' :: 'e' :: rest) rest
  | no (rest) : Spelled (.value (.flag false)) ('f' :: 'a' :: 'l' :: 's' :: 'e' :: rest) rest
  | number {w rest} (number : Number w rest) : Spelled (.value .number) w rest
  | text {gs w rest} (glyphs : Glyphs gs w rest) :
      Spelled (.value (.text (textOf gs))) ('"' :: w) rest
  | emptyArray {w rest} (inside : Blanks w (']' :: rest)) :
      Spelled (.value (.array [])) ('[' :: w) rest
  | array {vs w rest} (inside : Spelled (.items vs) w (']' :: rest)) :
      Spelled (.value (.array vs)) ('[' :: w) rest
  | emptyObject {w rest} (inside : Blanks w ('\x7d' :: rest)) :
      Spelled (.value (.object [])) ('\x7b' :: w) rest
  | object {ms w rest} (inside : Spelled (.members ms) w ('\x7d' :: rest)) :
      Spelled (.value (.object ms)) ('\x7b' :: w) rest
  | item {v w a b rest} (before : Blanks w a) (value : Spelled (.value v) a b)
      (after : Blanks b rest) : Spelled (.item v) w rest
  | lastItem {v w rest} (item : Spelled (.item v) w rest) : Spelled (.items [v]) w rest
  | nextItem {v vs w a rest} (item : Spelled (.item v) w (',' :: a))
      (others : Spelled (.items vs) a rest) : Spelled (.items (v::vs)) w rest
  | member {gs v w a b c rest} (before : Blanks w ('"' :: a)) (name : Glyphs gs a b)
      (after : Blanks b (':' :: c)) (item : Spelled (.item v) c rest) :
      Spelled (.member (textOf gs) v) w rest
  | lastMember {name v w rest} (member : Spelled (.member name v) w rest) :
      Spelled (.members [(name,v)]) w rest
  | nextMember {name v ms w a rest} (member : Spelled (.member name v) w (',' :: a))
      (others : Spelled (.members ms) a rest) : Spelled (.members ((name,v)::ms)) w rest

/- A member whose name decodes. -/
def decoded (m : String × Value) : Option String × Value := (some m.1,m.2)

/- A text that is an object and nothing else, and whose names decode. -/
inductive Document : String → List (String × Value) → Prop where
  | object {text ms a b} (before : Blanks text.toList a)
      (object : Spelled (.value (.object (ms.map decoded))) a b) (after : Blanks b []) :
      Document text ms

end Munch.Json
