import Munch.Position
import Munch.Symbol
import Munch.Text.Quoted

/-! Tokens, and the messages that say how each came about. A token is a symbol, the
text that stands for it and the place where its match begins; its length counts
characters. A scan is one answer of a tokenizer. -/
namespace Munch

inductive Message where
  | tokenRead | commentLineRead | commentBlockRead | lexicalError | endOfInput
  deriving DecidableEq, Repr

namespace Message

def name : Message → String
  | tokenRead => "TokenRead"
  | commentLineRead => "CommentLineRead"
  | commentBlockRead => "CommentBlockRead"
  | lexicalError => "LexicalError"
  | endOfInput => "End"

instance : ToString Message := ⟨name⟩

end Message

structure Token where
  symbol : Symbol
  text : String
  position : Position
  deriving DecidableEq, Repr

namespace Token

def kind (t : Token) : SymbolKind := t.symbol.kind

def name (t : Token) : String := t.symbol.name

def length (t : Token) : Nat := t.text.length

def isEmpty (t : Token) : Bool := t.text.isEmpty

instance : ToString Token where
  toString t := s!"{t.symbol} {Text.quoted t.text} at {t.position}"

end Token

structure Scan where
  message : Message
  token : Token
  deriving DecidableEq, Repr

end Munch
