import Munch.CharSet
import Munch.Symbol

/-! A compiled grammar: symbols, character sets and the states of a deterministic
automaton over characters. An edge names a character set and the state it leads to;
a state may accept a symbol. A character is followed along the first edge whose set
contains it, and a name stands for the first symbol that bears it. -/
namespace Munch

structure Edge where
  charSet : Nat
  target : Nat
  deriving DecidableEq, Repr

structure State where
  id : Nat
  accept : Option Nat
  edges : List Edge
  deriving DecidableEq, Repr

namespace State

def isAccepting (s : State) : Bool := s.accept.isSome

end State

structure Grammar where
  name : String
  symbols : Array Symbol
  charSets : Array CharSet
  states : Array State
  initial : Nat
  endSymbol : Symbol
  errorSymbol : Symbol
  deriving DecidableEq, Repr

namespace Grammar

def symbol? (g : Grammar) (id : Nat) : Option Symbol := g.symbols[id]?

def symbolByName? (g : Grammar) (name : String) : Option Symbol :=
  g.symbols.find? fun s => s.name = name

def symbolsOfKind (g : Grammar) (kind : SymbolKind) : List Symbol :=
  g.symbols.toList.filter fun s => s.kind = kind

def charSet? (g : Grammar) (id : Nat) : Option CharSet := g.charSets[id]?

def state? (g : Grammar) (id : Nat) : Option State := g.states[id]?

def admits (g : Grammar) (ch : Char) (e : Edge) : Bool :=
  (g.charSet? e.charSet).any (·.contains ch)

def next? (g : Grammar) (state : Nat) (ch : Char) : Option Nat := do
  let s ← g.state? state
  let e ← s.edges.find? (g.admits ch)
  return e.target

def accepted? (g : Grammar) (state : Nat) : Option Symbol := do
  let s ← g.state? state
  g.symbol? (← s.accept)

end Grammar
end Munch
