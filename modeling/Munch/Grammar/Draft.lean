import Munch.Grammar

/-! A grammar being declared. Declarations hand out ids in order and may name ids
that do not exist yet: a wire is an edge with the state it leaves, and a state is
declared by the symbol it accepts, if any. Compiling settles them. A draft compiles
when the end and error symbols are declared once each, there is a state, every id
resolves, states accept lexical symbols only and the edges of a state share no
character; otherwise the first fault in that order is reported, state by state, the
initial state last. -/
namespace Munch

structure Wire where
  source : Nat
  edge : Edge
  deriving DecidableEq, Repr

structure Draft where
  name : String
  symbols : Array (String × SymbolKind) := #[]
  charSets : Array CharSet := #[]
  accepts : Array (Option Nat) := #[]
  wires : Array Wire := #[]
  initial : Option Nat := none
  deriving DecidableEq, Repr

namespace Draft

def addSymbol (d : Draft) (name : String) (kind : SymbolKind) : Nat × Draft :=
  (d.symbols.size,{d with symbols := d.symbols.push (name,kind)})

def addCharSet (d : Draft) (s : CharSet) : Nat × Draft :=
  (d.charSets.size,{d with charSets := d.charSets.push s})

def addState (d : Draft) (accept : Option Nat := none) : Nat × Draft :=
  (d.accepts.size,{d with accepts := d.accepts.push accept})

def addEdge (d : Draft) (source charSet target : Nat) : Draft :=
  {d with wires := d.wires.push ⟨source,charSet,target⟩}

/-- Without a call the first state is the initial one; the last call wins. -/
def startAt (d : Draft) (state : Nat) : Draft := {d with initial := some state}

def symbolTable (d : Draft) : Array Symbol := d.symbols.mapIdx fun id s => ⟨id,s.1,s.2⟩

def edgesOf (d : Draft) (state : Nat) : List Edge :=
  (d.wires.toList.filter fun w => w.source = state).map Wire.edge

def stateTable (d : Draft) : Array State :=
  d.accepts.mapIdx fun id accept => ⟨id,accept,d.edgesOf id⟩

def sole (symbols : Array Symbol) (kind : SymbolKind) : Except Error Symbol :=
  match symbols.toList.filter fun s => s.kind = kind with
  | [] => .error (Cause.missingSymbol kind)
  | [s] => .ok s
  | a::b::_ => .error (Cause.duplicateSymbol kind a.name b.name)

def checkSource (d : Draft) (w : Wire) : Except Error Unit :=
  if w.source < d.accepts.size then .ok () else .error (Cause.unknownState w.source)

def checkAccept (d : Draft) : Option Nat → Except Error Unit
  | none => .ok ()
  | some id => match d.symbols[id]? with
    | none => .error (Cause.unknownSymbol id)
    | some (name,kind) =>
      if kind.isLexical then .ok () else .error (Cause.unacceptableSymbol name kind)

def resolveEdge (d : Draft) (e : Edge) : Except Error CharSet :=
  if e.target < d.accepts.size then
    match d.charSets[e.charSet]? with
    | some s => .ok s
    | none => .error (Cause.unknownCharSet e.charSet)
  else .error (Cause.unknownState e.target)

/-- Of ranges in order, the start of the first that begins inside the one before it. -/
def firstOverlap : List CharRange → Option Char
  | a::b::rest => if b.first.toNat ≤ a.last.toNat then some b.first else firstOverlap (b::rest)
  | _ => none

def sharedChar (sets : List CharSet) : Option Char :=
  firstOverlap (CharRange.sort (sets.flatMap fun s => s.ranges.toList))

def checkState (d : Draft) (s : State) : Except Error Unit := do
  d.checkAccept s.accept
  let sets ← s.edges.mapM d.resolveEdge
  match sharedChar sets with
  | some ch => .error (Cause.overlappingEdges s.id ch)
  | none => .ok ()

def checkInitial (d : Draft) : Except Error Nat :=
  let state := d.initial.getD 0
  if state < d.accepts.size then .ok state else .error (Cause.unknownState state)

def compile (d : Draft) : Except Error Grammar := do
  let endSymbol ← sole d.symbolTable .endOfInput
  let errorSymbol ← sole d.symbolTable .error
  if d.accepts.isEmpty then throw (Cause.noStates : Error)
  d.wires.toList.forM d.checkSource
  d.stateTable.toList.forM d.checkState
  let initial ← d.checkInitial
  return ⟨d.name,d.symbolTable,d.charSets,d.stateTable,initial,endSymbol,errorSymbol⟩

end Draft
end Munch
