import Munch.Json.Number
import Munch.Json.Text

/-! Values that are passed over, and values that are refused for their kind. A value
of any depth is skipped with a stack of the brackets that are open: a part of it is
a value without parts or an opening bracket, with the closing brackets, the comma
and the name that lead to the next part. -/
namespace Munch.Json

inductive Bracket where
  | square | curly
  deriving DecidableEq, Repr

namespace Bracket

def closer : Bracket → Char
  | square => ']'
  | curly => '\x7d'

def ofOpener? (ch : Char) : Option Bracket :=
  if ch = '[' then some square else if ch = '\x7b' then some curly else none

end Bracket

namespace Reader

def skipScalar (first : Char) : Reader Unit :=
  if first = 'n' then literal ['u','l','l']
  else if first = 't' then literal ['r','u','e']
  else if first = 'f' then literal ['a','l','s','e']
  else if first = '"' then skipText
  else if first = '-' then do skipNumber (← char)
  else skipNumber first

def skipName : Bracket → Reader Unit
  | .square => return ()
  | .curly => do
    expect '"'
    skipText
    expect ':'

/-- After a value: closes brackets up to the next comma. Gives the brackets that are
open where the next value starts, or none after the last bracket. -/
def afterValue : List Bracket → Reader (Option (List Bracket))
  | [] => return none
  | b::outer => do
    let ch ← look
    if ch = b.closer then
      eat
      afterValue outer
    else if ch = ',' then
      eat
      skipName b
      return some (b::outer)
    else refuse

def afterOpener (b : Bracket) (outer : List Bracket) : Reader (Option (List Bracket)) := do
  if (← look) = b.closer then
    eat
    afterValue outer
  else
    skipName b
    return some (b::outer)

def skipPart (opened : List Bracket) (first : Char) : Reader (Option (List Bracket)) :=
  match Bracket.ofOpener? first with
  | some b => afterOpener b opened
  | none => do
    skipScalar first
    afterValue opened

def skipValues (opened : List Bracket) (cells : List Cell) : Except Rejection (Parsed Unit cells) :=
  match front cells with
  | .error e => .error e
  | .ok head => match skipPart opened head.ch head.rest with
    | .error e => .error e
    | .ok p =>
      have shorter : p.rest.length < cells.length := Nat.lt_of_le_of_lt p.le head.lt
      match p.value with
      | none => .ok ⟨(),p.rest,Nat.le_of_lt shorter⟩
      | some opened => (skipValues opened p.rest).map (.widen (Nat.le_of_lt shorter))
termination_by cells.length

def skipValue : Reader Unit := skipValues []

/-- Refuses a value for its kind. One without parts is read first, so that a failure
of the feed inside it counts. -/
def refuseValue {α : Type} (first : Char) : Reader α :=
  if first = 'n' then do literal ['u','l','l']; refuse
  else if first = 't' then do literal ['r','u','e']; refuse
  else if first = 'f' then do literal ['a','l','s','e']; refuse
  else if first = '"' then do let _ ← text; refuse
  else if first = '-' then do refuseNumber (← char)
  else refuseNumber first

end Reader
end Munch.Json
