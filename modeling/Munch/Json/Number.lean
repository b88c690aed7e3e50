import Munch.Json.Reader

/-! JSON numbers, after their first character. Numbers never have a value here: they
are skipped, or they stand where no number may and are refused once they have been
read. The end of the input counts as a character that is no digit, and may be passed
there: more can follow a pause. -/
namespace Munch.Json.Reader

def digit? (ch : Char) : Option Nat :=
  if '0' ≤ ch ∧ ch ≤ '9' then some (ch.toNat - '0'.toNat) else none

def cellDigit? : Cell → Option Nat
  | .byte b => digit? (Char.ofNat b.toNat)
  | _ => none

def digits : Reader (List Nat) := fun cells =>
  .ok ⟨(cells.takeWhile fun c => (cellDigit? c).isSome).filterMap cellDigit?,
    cells.dropWhile fun c => (cellDigit? c).isSome,
    (List.dropWhile_sublist _).length_le⟩

def isDigit (ch : Option Char) : Bool := (ch.bind digit?).isSome

def isExponentMark (ch : Option Char) : Bool := ch = some 'e' || ch = some 'E'

def exponentSign : Reader Bool := do
  match ← peek with
  | some '+' => eat; return true
  | some '-' => eat; return false
  | _ => return true

def exponentDigits : Reader (List Nat) := do
  match digit? (← char) with
  | some first => return first :: (← digits)
  | none => refuse

def skipExponent : Reader Unit := do
  eat
  let _ ← exponentSign
  let _ ← exponentDigits
  let _ ← peek

def skipFraction : Reader Unit := do
  eat
  let fraction ← digits
  let _ ← peek
  if fraction.isEmpty then refuse
  else if isExponentMark (← peek) then skipExponent
  else return ()

/-- The digits before the point. No digit follows a leading zero. `closed` says of
the digits whether what follows them is looked at before it is judged. -/
def wholeDigits (closed : List Nat → Bool) (first : Char) : Reader (List Nat) := do
  match digit? first with
  | none => refuse
  | some 0 => if isDigit (← peek) then refuse else return [0]
  | some first =>
    let whole := first :: (← digits)
    if closed whole then
      let _ ← peek
    return whole

def skipNumber (first : Char) : Reader Unit := do
  let _ ← wholeDigits (fun _ => true) first
  let next ← peek
  if next = some '.' then skipFraction
  else if isExponentMark next then skipExponent
  else return ()

def ofDigits (digits : List Nat) : Nat := digits.foldl (fun n d => n*10+d) 0

def largestWhole : Nat := 0xFFFFFFFFFFFFFFFF

def largestExponent : Nat := 0x7FFFFFFF

/-- A number that is not zero is refused as soon as its exponent grows too large. -/
def refuseExponent {α : Type} (isZero : Bool) : Reader α := do
  eat
  let positive ← exponentSign
  let exponent ← exponentDigits
  if positive && !isZero && largestExponent < ofDigits exponent then refuse
  else
    let _ ← peek
    refuse

def refuseFraction {α : Type} (isZero : Bool) : Reader α := do
  eat
  let fraction ← digits
  let _ ← peek
  if isExponentMark (← peek) && !fraction.isEmpty then
    refuseExponent (isZero && ofDigits fraction = 0)
  else refuse

def refuseNumber {α : Type} (first : Char) : Reader α := do
  let whole ← wholeDigits (fun whole => ofDigits whole ≤ largestWhole) first
  let isZero := ofDigits whole = 0
  let next ← peek
  if next = some '.' then refuseFraction isZero
  else if isExponentMark next then refuseExponent isZero
  else refuse

end Munch.Json.Reader
