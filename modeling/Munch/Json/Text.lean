import Munch.Json.Reader

/-! JSON strings, after their opening quote. A string that is read must be Unicode
text: its surrogate escapes pair and its bytes are UTF-8. A string that is skipped
need only have well-formed escapes. -/
namespace Munch.Json.Reader

def hexDigit? (ch : Char) : Option Nat :=
  if '0' ≤ ch ∧ ch ≤ '9' then some (ch.toNat - '0'.toNat)
  else if 'a' ≤ ch ∧ ch ≤ 'f' then some (ch.toNat - 'a'.toNat+10)
  else if 'A' ≤ ch ∧ ch ≤ 'F' then some (ch.toNat - 'A'.toNat+10)
  else none

/-- Four hexadecimal digits; all four characters are read before they are judged. -/
def hex4 : Reader Nat := do
  let a ← char
  let b ← char
  let c ← char
  let d ← char
  match hexDigit? a,hexDigit? b,hexDigit? c,hexDigit? d with
  | some a,some b,some c,some d => return ((a*16+b)*16+c)*16+d
  | _,_,_,_ => refuse

def expectHere (ch : Char) : Reader Unit := do
  if (← char) = ch then return () else refuse

def unicodeEscape : Reader Char := do
  let first ← hex4
  if 0xDC00 ≤ first ∧ first ≤ 0xDFFF then refuse
  else if 0xD800 ≤ first ∧ first ≤ 0xDBFF then
    expectHere '\\'
    expectHere 'u'
    let second ← hex4
    if 0xDC00 ≤ second ∧ second ≤ 0xDFFF then
      return Char.ofNat (0x10000+(first-0xD800)*0x400+(second-0xDC00))
    else refuse
  else return Char.ofNat first

def shortEscape? : Char → Option Char
  | '"' => some '"'
  | '\\' => some '\\'
  | '/' => some '/'
  | 'b' => some '\x08'
  | 'f' => some '\x0c'
  | 'n' => some '\n'
  | 'r' => some '\r'
  | 't' => some '\t'
  | _ => none

def escape : Reader Char := do
  let ch ← char
  if ch = 'u' then unicodeEscape
  else match shortEscape? ch with
    | some ch => return ch
    | none => refuse

def skipEscape : Reader Unit := do
  let ch ← char
  if ch = 'u' then
    let _ ← hex4
    return ()
  else match shortEscape? ch with
    | some _ => return ()
    | none => refuse

/-- The bytes of a string up to its closing quote; `taken` holds those before, the
last one first. -/
def textBytes (taken : List UInt8) (cells : List Cell) :
    Except Rejection (Parsed (List UInt8) cells) :=
  match cells with
  | [] => .error .malformed
  | .pause::_ => .error .malformed
  | .failure::_ => .error .unreadable
  | .byte b::rest =>
    if b = 0x22 then .ok ⟨taken.reverse,rest,Nat.le_succ _⟩
    else if b = 0x5C then match escape rest with
      | .error e => .error e
      | .ok p =>
        have shorter := p.le
        (textBytes ((String.utf8EncodeChar p.value).reverse ++ taken) p.rest).map
          (.widen (Nat.le_succ_of_le shorter))
    else if b < 0x20 then .error .malformed
    else (textBytes (b::taken) rest).map (.widen (Nat.le_succ _))
termination_by cells.length

def text : Reader String := do
  let bytes ← (textBytes [] : Reader (List UInt8))
  match String.fromUTF8? bytes.toByteArray with
  | some text => return text
  | none => refuse

def skipText (cells : List Cell) : Except Rejection (Parsed Unit cells) :=
  match cells with
  | [] => .error .malformed
  | .pause::_ => .error .malformed
  | .failure::_ => .error .unreadable
  | .byte b::rest =>
    if b = 0x22 then .ok ⟨(),rest,Nat.le_succ _⟩
    else if b = 0x5C then match skipEscape rest with
      | .error e => .error e
      | .ok p =>
        have shorter := p.le
        (skipText p.rest).map (.widen (Nat.le_succ_of_le shorter))
    else if b < 0x20 then .error .malformed
    else (skipText rest).map (.widen (Nat.le_succ _))
termination_by cells.length

end Munch.Json.Reader
