import Munch.Token

/-! What a tokenizer notes in a log while it runs: tokens delivered, characters that no
match begins with, block comments cut off by the end of the input, and the end
itself. An event has a level, a message and named fields. -/
namespace Munch

inductive Event where
  /-- A token was delivered; `length` characters were consumed since its start. -/
  | tokenScanned (message : Message) (symbol : String) (index length : Nat)
  | lexicalError (text : String) (position : Position)
  | unterminatedComment (start : Position)
  | sourceExhausted (index : Nat)
  deriving DecidableEq, Repr

namespace Event

inductive Level where
  | trace | debug
  deriving DecidableEq, Repr

inductive Field where
  | number (value : Nat)
  | text (value : String)
  deriving DecidableEq, Repr

def Level.name : Level → String
  | trace => "TRACE"
  | debug => "DEBUG"

def level : Event → Level
  | tokenScanned .. | sourceExhausted _ => .trace
  | lexicalError .. | unterminatedComment _ => .debug

def message : Event → String
  | tokenScanned .. => "token scanned"
  | lexicalError .. => "lexical error"
  | unterminatedComment _ => "unterminated block comment"
  | sourceExhausted _ => "source exhausted"

def placeFields (p : Position) : List (String × Field) :=
  [("index",.number p.index),("line",.number p.line),("column",.number p.column)]

def fields : Event → List (String × Field)
  | tokenScanned message symbol index length =>
    [("kind",.text message.name),("symbol",.text symbol),
      ("index",.number index),("length",.number length)]
  | lexicalError text position => ("character",.text (Text.quoted text)) :: placeFields position
  | unterminatedComment start => placeFields start
  | sourceExhausted index => [("index",.number index)]

end Event
end Munch
