import Munch.Error
import Munch.Source.ByteFeed

/-! Reading JSON byte by byte from a feed, no further than the grammar needs. What a
feed will deliver is a list of cells: bytes, ends of the input for now, and
failures; a read that was interrupted is repeated and leaves no cell. A reader
returns a value and the cells it leaves, never more than it got, so that reading
until the cells run out finishes. A failure counts only when reading reaches it.
`peek` and `look` leave what they show unread, and `eat` reads it; `look`, `front`
and `expect` pass blanks first. `front` keeps the fact that it has read something. -/
namespace Munch.Json

inductive Cell where
  | byte (b : UInt8)
  | pause
  | failure
  deriving DecidableEq, Repr

def cellsOf : Packet → List Cell
  | .bytes [] => [.pause]
  | .bytes data => data.map .byte
  | .failure e => if e.kind = .interrupted then [] else [.failure]

def cellsOfFeed (feed : ByteFeed) : List Cell := feed.buffer.map .byte ++ feed.packets.flatMap cellsOf

structure Parsed (α : Type) (cells : List Cell) where
  value : α
  rest : List Cell
  le : rest.length ≤ cells.length

def Parsed.widen {α : Type} {less more : List Cell} (h : less.length ≤ more.length)
    (p : Parsed α less) : Parsed α more := ⟨p.value,p.rest,Nat.le_trans p.le h⟩

def Reader (α : Type) : Type := (cells : List Cell) → Except Rejection (Parsed α cells)

namespace Reader
variable {α β : Type}

instance : Monad Reader where
  pure a cells := .ok ⟨a,cells,Nat.le_refl _⟩
  bind r f cells := match r cells with
    | .error e => .error e
    | .ok p => (f p.value p.rest).map (.widen p.le)

def refuse : Reader α := fun _ => .error .malformed

/-- The next byte as the character of that code, which stays unread; none at the end. -/
def peek : Reader (Option Char)
  | [] => .ok ⟨none,[],Nat.le_refl _⟩
  | .byte b::rest => .ok ⟨some (Char.ofNat b.toNat),.byte b::rest,Nat.le_refl _⟩
  | .pause::rest => .ok ⟨none,rest,Nat.le_succ _⟩
  | .failure::_ => .error .unreadable

def eat : Reader Unit := fun cells => .ok ⟨(),cells.tail,by simp⟩

def byte : Reader UInt8
  | [] => .error .malformed
  | .byte b::rest => .ok ⟨b,rest,Nat.le_succ _⟩
  | .pause::_ => .error .malformed
  | .failure::_ => .error .unreadable

def char : Reader Char := do return Char.ofNat (← byte).toNat

def isBlank : Cell → Bool
  | .byte b => b = 0x20 || b = 0x09 || b = 0x0A || b = 0x0D
  | _ => false

def skipBlanks : Reader Unit := fun cells =>
  .ok ⟨(),cells.dropWhile isBlank,(List.dropWhile_sublist isBlank).length_le⟩

def look : Reader Char := do
  skipBlanks
  match ← peek with
  | some ch => return ch
  | none => refuse

def expect (ch : Char) : Reader Unit := do
  if (← look) = ch then eat else refuse

def literal : List Char → Reader Unit
  | [] => return ()
  | ch::rest => do
    if (← char) = ch then literal rest else refuse

def finish : Reader Unit := do
  skipBlanks
  match ← peek with
  | some _ => refuse
  | none => return ()

structure Front (cells : List Cell) where
  ch : Char
  rest : List Cell
  lt : rest.length < cells.length

def front (cells : List Cell) : Except Rejection (Front cells) :=
  match left : cells.dropWhile isBlank with
  | [] => .error .malformed
  | .byte b::rest => .ok ⟨Char.ofNat b.toNat,rest,by
    have := (List.dropWhile_sublist isBlank (l := cells)).length_le
    rw [left] at this
    exact this⟩
  | .pause::_ => .error .malformed
  | .failure::_ => .error .unreadable

def run (r : Reader α) (cells : List Cell) : Except Rejection α :=
  (r cells).map Parsed.value

end Reader
end Munch.Json
