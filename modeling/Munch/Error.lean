import Munch.Position
import Munch.ReadError
import Munch.Symbol
import Munch.Text.Quoted

/-! What can go wrong when a grammar is compiled, a character set is made, settings
are read or a tokenizer is started and run, each with its message and, where there
is one, a tip that says what to do about it. A settings document is refused because
reading it failed or because it is not one. -/
namespace Munch
open Text (quoted quotedChar)

inductive Rejection where
  | unreadable | malformed
  deriving DecidableEq, Repr

inductive Cause where
  | absentArgument (argument : String)
  | readFailure (failure : ReadError)
  | settings (rejection : Rejection)
  | missingSymbol (kind : SymbolKind)
  | duplicateSymbol (kind : SymbolKind) (first second : String)
  | unacceptableSymbol (symbol : String) (kind : SymbolKind)
  | unknownSymbol (id : Nat)
  | unknownCharSet (id : Nat)
  | unknownState (state : Nat)
  | noStates
  | emptyRange (first last : Char)
  | overlappingEdges (state : Nat) (character : Char)
  deriving DecidableEq, Repr

namespace Cause

def name : Cause → String
  | absentArgument _ => "InvalidArgument"
  | readFailure _ => "Io"
  | settings _ => "Config"
  | missingSymbol _ => "MissingSpecialSymbol"
  | duplicateSymbol .. => "DuplicateSpecialSymbol"
  | unacceptableSymbol .. => "InvalidAcceptSymbol"
  | unknownSymbol _ => "UnknownSymbol"
  | unknownCharSet _ => "UnknownCharSet"
  | unknownState _ => "UnknownDfaState"
  | noStates => "EmptyDfa"
  | emptyRange .. => "EmptyCharRange"
  | overlappingEdges .. => "NondeterministicTransition"

def message : Cause → String
  | absentArgument argument => s!"invalid argument: {argument} is absent"
  | readFailure _ => "reading the character source failed"
  | settings _ => "invalid tokenizer configuration"
  | missingSymbol kind => s!"grammar has no symbol of kind {kind}"
  | duplicateSymbol kind first second =>
    s!"grammar has more than one symbol of kind {kind}: {quoted first} and {quoted second}"
  | unacceptableSymbol symbol kind => s!"DFA state accepts {quoted symbol} of kind {kind}"
  | unknownSymbol id => s!"unknown symbol id {id}"
  | unknownCharSet id => s!"unknown character set id {id}"
  | unknownState state => s!"unknown DFA state {state}"
  | noStates => "grammar has no DFA states"
  | emptyRange first last => s!"empty character range {quotedChar first}..={quotedChar last}"
  | overlappingEdges state character =>
    s!"DFA state {state} has more than one edge for {quotedChar character}"

def tip : Cause → Option String
  | absentArgument argument =>
    some s!"A tokenizer needs both a source and a grammar, `{argument}` was missing"
  | settings _ => some "Check the configuration JSON against `TokenizerConfig`"
  | missingSymbol kind => some s!"Add exactly one symbol of kind {kind} to the grammar"
  | duplicateSymbol kind _ _ => some s!"Only one symbol may be of kind {kind}"
  | unacceptableSymbol symbol kind =>
    some s!"Symbol `{symbol}` of kind {kind} can never be matched from input"
  | unknownSymbol _ | unknownCharSet _ | unknownState _ =>
    some "Use the ids returned by the builder when wiring the grammar"
  | overlappingEdges state _ =>
    some s!"The character sets on the edges of state {state} must be disjoint"
  | readFailure _ | noStates | emptyRange .. => none

end Cause

structure Error where
  cause : Cause
  position : Option Position := none
  deriving DecidableEq, Repr

namespace Error

instance : Coe Cause Error := ⟨fun cause => ⟨cause,none⟩⟩

def message (e : Error) : String :=
  match e.position with
  | some p => s!"{e.cause.message} at {p}"
  | none => e.cause.message

instance : ToString Error := ⟨message⟩

end Error
end Munch
