/-! Places in a character stream: how many characters come before, and the line and
column counted from one. A carriage return starts a line, a line feed starts one
unless it completes a pair begun by a carriage return, and every character moves
the index by one. Places are in order by index, then line, then column. A cursor
is a place with the character before it, which decides about pairs. -/
namespace Munch

structure Position where
  index : Nat
  line : Nat
  column : Nat
  deriving DecidableEq, Repr

namespace Position

def start : Position := ⟨0,1,1⟩

instance : Inhabited Position := ⟨start⟩

def advance (p : Position) (previous : Option Char) (ch : Char) : Position :=
  if ch = '\r' then ⟨p.index+1,p.line+1,1⟩
  else if ch = '\n' then
    if previous = some '\r' then ⟨p.index+1,p.line,p.column⟩ else ⟨p.index+1,p.line+1,1⟩
  else ⟨p.index+1,p.line,p.column+1⟩

instance : Ord Position where
  compare a b :=
    (compare a.index b.index).then ((compare a.line b.line).then (compare a.column b.column))

instance : LT Position := ltOfOrd
instance : LE Position := leOfOrd

instance : ToString Position where
  toString p := s!"{p.line}:{p.column} (index {p.index})"

theorem advanceIndex (p : Position) (previous : Option Char) (ch : Char) :
    (p.advance previous ch).index = p.index+1 := by
  unfold advance
  repeat' split
  all_goals rfl

theorem compareOfIndex {a b : Position} (h : a.index < b.index) : compare a b = .lt := by
  have first : compare a.index b.index = .lt := Nat.compare_eq_lt.mpr h
  show (compare a.index b.index).then _ = .lt
  rw [first]; rfl

end Position

structure Cursor where
  position : Position
  previous : Option Char
  deriving DecidableEq, Repr

namespace Cursor

def start : Cursor := ⟨Position.start,none⟩

def advance (k : Cursor) (ch : Char) : Cursor := ⟨k.position.advance k.previous ch,some ch⟩

def advanceAll (k : Cursor) (run : List Char) : Cursor := run.foldl advance k

@[simp] theorem advanceAllNil (k : Cursor) : k.advanceAll [] = k := rfl

@[simp] theorem advanceAllCons (k : Cursor) (ch : Char) (run : List Char) :
    k.advanceAll (ch::run) = (k.advance ch).advanceAll run := rfl

theorem advanceAllAppend (k : Cursor) (a b : List Char) :
    k.advanceAll (a++b) = (k.advanceAll a).advanceAll b := List.foldl_append

theorem advanceAllIndex (k : Cursor) (run : List Char) :
    (k.advanceAll run).position.index = k.position.index+run.length := by
  induction run generalizing k with
  | nil => rfl
  | cons ch run ih =>
    rw [advanceAllCons,ih,List.length_cons]
    simp only [advance,Position.advanceIndex]
    omega

end Cursor
end Munch
