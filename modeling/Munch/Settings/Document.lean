import Munch.Json.Skip
import Munch.Settings.Declared

/-! A reader of JSON documents for settings, byte by byte: an object whose known members
are settings, each given at most once, or an array of the settings in order. What is not
given keeps its default. Other members are skipped. Names are compared once their escapes
have been read; a repeated name is refused before its value is looked at. -/
namespace Munch.Settings
open Json
open Json.Reader

structure Given where
  commentText : Option CommentText := none
  nestedBlockComments : Option Bool := none
  deriving DecidableEq, Repr

def Given.settings (given : Given) : Settings :=
  ⟨given.commentText.getD .withDelimiters,given.nestedBlockComments.getD false⟩

def readFlag : Reader Bool := do
  let first ← look
  if first = 't' then do eat; literal ['r','u','e']; return true
  else if first = 'f' then do eat; literal ['a','l','s','e']; return false
  else refuseAt first
where
  refuseAt {α : Type} (first : Char) : Reader α := do eat; refuseValue first

def readName : Reader CommentText := do
  expect '"'
  match CommentText.ofName? (← text) with
  | some c => return c
  | none => refuse

def readNull : Reader Unit := do
  let first ← look
  eat
  if first = 'n' then literal ['u','l','l'] else refuseValue first

/-- A comment text by its name, or by an object that has the name as its one key. -/
def readCommentText : Reader CommentText := do
  let first ← look
  if first = '"' then readName
  else if first = '\x7b' then
    eat
    let c ← readName
    expect ':'
    readNull
    expect '\x7d'
    return c
  else refuse

def readMember (given : Given) : Reader Given := do
  let name ← text
  if name = "comment_text" then
    if given.commentText.isSome then refuse
    else
      expect ':'
      return {given with commentText := some (← readCommentText)}
  else if name = "nested_block_comments" then
    if given.nestedBlockComments.isSome then refuse
    else
      expect ':'
      return {given with nestedBlockComments := some (← readFlag)}
  else
    expect ':'
    skipValue
    return given

def readMembers (isFirst : Bool) (given : Given) (cells : List Cell) :
    Except Rejection (Parsed Given cells) :=
  match front cells with
  | .error e => .error e
  | .ok head =>
    if head.ch = '\x7d' then .ok ⟨given,head.rest,Nat.le_of_lt head.lt⟩
    else match memberAfter head.ch head.rest with
      | .error e => .error e
      | .ok p =>
        have shorter : p.rest.length < cells.length := Nat.lt_of_le_of_lt p.le head.lt
        (readMembers false p.value p.rest).map (.widen (Nat.le_of_lt shorter))
termination_by cells.length
where
  memberAfter (first : Char) : Reader Given := do
    if isFirst then
      if first = '"' then readMember given else refuse
    else if first = ',' then
      expect '"'
      readMember given
    else refuse

def hasElement (isFirst : Bool) : Reader Bool := do
  let ch ← look
  if ch = ']' then return false
  else if isFirst then return true
  else if ch = ',' then
    eat
    if (← look) = ']' then refuse else return true
  else refuse

def readElements : Reader Given := do
  if ← hasElement true then
    let commentText ← readCommentText
    if ← hasElement false then
      let nested ← readFlag
      expect ']'
      return ⟨some commentText,some nested⟩
    else
      expect ']'
      return ⟨some commentText,none⟩
  else
    expect ']'
    return {}

def readGiven : Reader Given := do
  let first ← look
  eat
  if first = '\x7b' then readMembers true {}
  else if first = '[' then readElements
  else refuseValue first

def readDocument : Reader Settings := do
  let given ← readGiven
  finish
  return given.settings

def readText (text : String) : Except Rejection Settings :=
  readDocument.run (text.toUTF8.data.toList.map .byte)

def ofJson (json : String) : Except Error Settings := fromText readText json

def ofFeed (feed : ByteFeed) : Except Error Settings :=
  ofAnswer (readDocument.run (cellsOfFeed feed))

end Munch.Settings
