import Munch.Comment
import Munch.Event

/-! A tokenizer answers each call with one token: the longest match at the front of
its input, a whole comment, a single character that no match begins with, or the
end. A failed read is the answer of its call alone; the next call goes on from the
same place, in the middle of a comment if need be. A turn is one call: its answer,
what it logs, and the tokenizer after it. Closing gives the source back without the
characters read ahead. -/
namespace Munch

structure Tokenizer (σ : Type) where
  grammar : Grammar
  settings : Settings := {}
  head : Head σ
  /-- The comment that a failed read has interrupted. -/
  openComment : Option OpenComment := none
  /-- The end has been answered. -/
  exhausted : Bool := false
  /-- Iteration has met a failure. -/
  failed : Bool := false

structure Turn (σ : Type) where
  result : Except Error Scan
  events : List Event
  tokenizer : Tokenizer σ

namespace Tokenizer
variable {σ : Type}

def ofSource (g : Grammar) (source : σ) : Tokenizer σ :=
  {grammar := g,head := ⟨⟨source,[],false⟩,.start⟩}

def start? (source : Option σ) (grammar : Option Grammar) : Except Error (Tokenizer σ) :=
  match source,grammar with
  | none,_ => .error (Cause.absentArgument "source")
  | some _,none => .error (Cause.absentArgument "grammar")
  | some source,some g => .ok (ofSource g source)

def configure (t : Tokenizer σ) (settings : Settings) : Tokenizer σ := {t with settings}

def position (t : Tokenizer σ) : Position := t.head.position

def close (t : Tokenizer σ) : σ := t.head.input.source

def delivered (t : Tokenizer σ) (events : List Event) (message : Message) (token : Token) : Turn σ :=
  let length := t.position.index-token.position.index
  ⟨.ok ⟨message,token⟩,
    events ++ [.tokenScanned message token.symbol.name token.position.index length],t⟩

def failedRead (t : Tokenizer σ) (failure : ReadError) : Turn σ :=
  ⟨.error ⟨.readFailure failure,some t.position⟩,[],t⟩

def atEnd (t : Tokenizer σ) : Turn σ :=
  ⟨.ok ⟨.endOfInput,⟨t.grammar.endSymbol,"",t.position⟩⟩,
    if t.exhausted then [] else [.sourceExhausted t.position.index],{t with exhausted := true}⟩

variable [CharSource σ]

def finishComment (t : Tokenizer σ) (c : OpenComment) : Turn σ :=
  if c.symbol.kind = .commentLineStart then
    match OpenComment.finishLine t.head c with
    | (.error e,head,c) => failedRead {t with head,openComment := some c} e
    | (.ok (),head,c) =>
      delivered {t with head,openComment := none} [] .commentLineRead ⟨c.symbol,c.text,c.start⟩
  else
    match OpenComment.finishBlock t.grammar t.settings t.head c with
    | (.error e,head,c) => failedRead {t with head,openComment := some c} e
    | (.ok ending,head,c) =>
      delivered {t with head,openComment := none}
        (if ending = .cutOff then [.unterminatedComment c.start] else [])
        .commentBlockRead ⟨c.symbol,c.text,c.start⟩

def accept (t : Tokenizer σ) : Longest → Turn σ
  | .atEnd => t.atEnd
  | .nothing =>
    let text := String.ofList (t.head.ahead 1)
    delivered {t with head := t.head.consume 1} [.lexicalError text t.position]
      .lexicalError ⟨t.grammar.errorSymbol,text,t.position⟩
  | .found m =>
    let text := String.ofList (t.head.ahead m.length)
    let t' := {t with head := t.head.consume m.length}
    if m.symbol.kind = .commentLineStart ∨ m.symbol.kind = .commentBlockStart then
      let shown := if t.settings.commentText = .withDelimiters then text else ""
      t'.finishComment ⟨m.symbol,shown,t.position,1⟩
    else delivered t' [] .tokenRead ⟨m.symbol,text,t.position⟩

def next (t : Tokenizer σ) : Turn σ :=
  match t.openComment with
  | some c => t.finishComment c
  | none =>
    if t.exhausted then t.atEnd
    else match t.head.input.longest t.grammar with
      | (.error e,input) => failedRead {t with head := {t.head with input}} e
      | (.ok found,input) => accept {t with head := {t.head with input}} found

def isDone (t : Tokenizer σ) : Bool := t.failed || t.exhausted

def iterate (t : Tokenizer σ) : Option (Turn σ) :=
  if t.isDone then none
  else
    let turn := t.next
    some {turn with tokenizer := {turn.tokenizer with failed := !turn.result.isOk}}

end Tokenizer
end Munch
