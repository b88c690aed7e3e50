/-! Grammar symbols and the kinds that decide how the tokenizer treats them. -/
namespace Munch

inductive SymbolKind where
  | nonterminal | terminal | whiteSpace
  | commentLineStart | commentBlockStart | commentBlockEnd
  | error | endOfInput
  deriving DecidableEq, Repr

namespace SymbolKind

def all : List SymbolKind :=
  [nonterminal,terminal,whiteSpace,commentLineStart,commentBlockStart,commentBlockEnd,error,endOfInput]

def name : SymbolKind → String
  | nonterminal => "Nonterminal"
  | terminal => "Terminal"
  | whiteSpace => "WhiteSpace"
  | commentLineStart => "CommentLineStart"
  | commentBlockStart => "CommentBlockStart"
  | commentBlockEnd => "CommentBlockEnd"
  | error => "Error"
  | endOfInput => "End"

instance : ToString SymbolKind := ⟨name⟩

/-- Nonterminals belong to a parser, and the error and end symbols are produced
without a match, so a state may accept none of them. -/
def isLexical : SymbolKind → Bool
  | nonterminal | error | endOfInput => false
  | _ => true

theorem memAll (kind : SymbolKind) : kind ∈ all := by cases kind <;> simp [all]

end SymbolKind

structure Symbol where
  id : Nat
  name : String
  kind : SymbolKind
  deriving DecidableEq, Repr

instance : ToString Symbol where
  toString s := match s.kind with
    | .nonterminal => "<" ++ s.name ++ ">"
    | .terminal => s.name
    | _ => "(" ++ s.name ++ ")"

end Munch
