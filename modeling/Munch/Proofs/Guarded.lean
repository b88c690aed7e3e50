import Mathlib.Data.List.Basic
import Munch.Proofs.Session
import Munch.Source.SlicedText
import Munch.Source.Utf8

/-! Guarded execution. Each step that is defined for some arguments only, a look into a
table, a subtraction, a removal from a queue, a slice of a text, is a fault outside its
domain, and so is a loop that goes round with nothing used up. The functions here run as
those they guard, with what a guarded step gives, and stop at the first fault. -/
namespace Munch

inductive Fault where
  /-- An edge names a character set that is not in the table. -/
  | charSet (id : Nat)
  /-- An id is looked up that is not in the catalogue. -/
  | symbol (id : Nat)
  /-- A marker closes a comment that is not open. -/
  | depth
  /-- A token ends before the place where it begins. -/
  | length
  /-- More characters are consumed than have been read ahead. -/
  | starved
  /-- A byte is taken that is not at hand. -/
  | unseen
  /-- A text is cut within a character, or a buffer beyond its end. -/
  | slice
  /-- A loop goes round with nothing used up. -/
  | stalled
  deriving DecidableEq, Repr

@[simp] theorem Fault.okBind {α β : Type} (a : α) (f : α → Except Fault β) :
    (Except.ok a >>= f) = f a := rfl

@[simp] theorem Fault.pureOk {α : Type} (a : α) : (pure a : Except Fault α) = .ok a := rfl

namespace Grammar

def tryCharSet (g : Grammar) (id : Nat) : Except Fault CharSet :=
  match g.charSet? id with
  | some s => .ok s
  | none => .error (.charSet id)

def trySymbol (g : Grammar) (id : Nat) : Except Fault Symbol :=
  match g.symbol? id with
  | some y => .ok y
  | none => .error (.symbol id)

def tryFind (g : Grammar) (ch : Char) : List Edge → Except Fault (Option Edge)
  | [] => .ok none
  | e::rest => do
    let s ← g.tryCharSet e.charSet
    if s.contains ch then return some e else tryFind g ch rest

def tryNext (g : Grammar) (state : Nat) (ch : Char) : Except Fault (Option Nat) :=
  match g.state? state with
  | none => .ok none
  | some s => do
    let found ← g.tryFind ch s.edges
    return found.map Edge.target

/- Each name with the id of the first symbol that bears it. -/
def names (g : Grammar) : Std.HashMap String Nat :=
  g.symbols.toList.foldl (fun names y => names.insertIfNew y.name y.id) ∅

def tryByName (g : Grammar) (name : String) : Except Fault (Option Symbol) :=
  match g.names[name]? with
  | none => .ok none
  | some id => do
    let y ← g.trySymbol id
    return some y

def tryEnd (g : Grammar) : Except Fault Symbol := g.trySymbol g.endSymbol.id

def tryError (g : Grammar) : Except Fault Symbol := g.trySymbol g.errorSymbol.id

end Grammar

namespace Walk

def tryStep (g : Grammar) (w : Walk) (ch : Char) : Except Fault Walk :=
  match w.state with
  | none => .ok w
  | some state => do
    match ← g.tryNext state ch with
    | none => return {w with state := none}
    | some target =>
      return ⟨some target,w.length+1,match g.accepted? target with
        | some symbol => some ⟨w.length+1,symbol,Nat.add_one_pos _⟩
        | none => w.best⟩

def tryRun (g : Grammar) (w : Walk) : List Char → Except Fault Walk
  | [] => .ok w
  | ch::rest => if w.isStuck then .ok w else do
    let w ← w.tryStep g ch
    tryRun g w rest

end Walk

namespace SlicedText

def tryRemaining (s : SlicedText) : Except Fault String :=
  if s.offset.isValid s.text then .ok s.remaining else .error .slice

def tryRead (s : SlicedText) : Except Fault (Answer × SlicedText) := do
  let rest ← s.tryRemaining
  return s.shown rest.toList.head?

end SlicedText

def ByteFeed.trySkip (f : ByteFeed) : Except Fault ByteFeed :=
  if f.buffer.isEmpty then .error .unseen else .ok f.skip

namespace Utf8

def tryContinuations : Nat → ByteFeed → Except Fault (Except ReadError (List UInt8) × ByteFeed)
  | 0,feed => .ok (.ok [],feed)
  | count+1,feed => match feed.peek with
    | (.error e,feed) => .ok (.error e,feed)
    | (.ok none,feed) => .ok (.error truncated,feed)
    | (.ok (some b),feed) =>
      if isContinuation b then do
        match ← tryContinuations count (← feed.trySkip) with
        | (.ok tail,feed) => return (.ok (b::tail),feed)
        | (.error e,feed) => return (.error e,feed)
      else .ok (.error (badContinuation b),feed)

/- The bytes of a character are gathered in a buffer of four. -/
def tryFinish (lead : UInt8) (feed : ByteFeed) : Except Fault (Answer × ByteFeed) :=
  match width lead with
  | none => .ok (.error (badLead lead),feed)
  | some width => if 4 < width then .error .slice else do
    match ← tryContinuations (width-1) feed with
    | (.error e,feed) => return (.error e,feed)
    | (.ok tail,feed) => match assemble lead tail with
      | some ch => return (.ok (some ch),feed)
      | none => return (.error illFormed,feed)

def tryRead (feed : ByteFeed) : Except Fault (Answer × ByteFeed) :=
  match feed.peek with
  | (.error e,feed) => .ok (.error e,feed)
  | (.ok none,feed) => .ok (.ok none,feed)
  | (.ok (some lead),feed) => do tryFinish lead (← feed.trySkip)

end Utf8

def Utf8Source.tryRead (s : Utf8Source) : Except Fault (Answer × Utf8Source) := do
  let (answer,feed) ← Utf8.tryRead s.feed
  return (answer,⟨feed⟩)

variable {σ : Type}

def Head.tryConsume (h : Head σ) (count : Nat) : Except Fault (Head σ) :=
  if count ≤ h.input.pending.length then .ok (h.consume count) else .error .starved

namespace OpenComment

def Reaction.tryOfLongest (nested : Bool) (depth : Nat) : Longest → Except Fault Reaction
  | .found m =>
    if m.symbol.kind = .commentBlockEnd then
      match depth with
      | 0 => .error .depth
      | 1 => .ok (.close m.length)
      | depth+2 => .ok (.take m.length (depth+1))
    else .ok (ofLongest nested depth (.found m))
  | found => .ok (ofLongest nested depth found)

end OpenComment

namespace Tokenizer

def tryDelivered (t : Tokenizer σ) (events : List Event) (message : Message) (token : Token) :
    Except Fault (Turn σ) :=
  if token.position.index ≤ t.position.index then .ok (t.delivered events message token)
  else .error .length

def tryAtEnd (t : Tokenizer σ) : Except Fault (Turn σ) := do
  let symbol ← t.grammar.tryEnd
  return ⟨.ok ⟨.endOfInput,⟨symbol,"",t.position⟩⟩,
    if t.exhausted then [] else [.sourceExhausted t.position.index],{t with exhausted := true}⟩

def tryFinishing {α : Type} (t : Tokenizer σ) (message : Message)
    (events : α → OpenComment → List Event) :
    Except ReadError α × Head σ × OpenComment → Except Fault (Turn σ)
  | (.error e,head,c) => .ok (failedRead {t with head,openComment := some c} e)
  | (.ok a,head,c) =>
    tryDelivered {t with head,openComment := none} (events a c) message ⟨c.symbol,c.text,c.start⟩

end Tokenizer

/-! From here on a source is read through `tryRead`. -/

variable [CharSource σ] (tryRead : σ → Except Fault (Answer × σ))

namespace Input

def tryPeek (i : Input σ) : Except Fault (Answer × Input σ) :=
  match i.pending with
  | ch::_ => .ok (.ok (some ch),i)
  | [] =>
    if i.ended then .ok (.ok none,i)
    else do
      match ← tryRead i.source with
      | (.ok (some ch),source) => return (.ok (some ch),⟨source,[ch],false⟩)
      | (.ok none,source) => return (.ok none,⟨source,[],true⟩)
      | (.error e,source) => return (.error e,⟨source,[],false⟩)

def tryReadOn (g : Grammar) (w : Walk) (source : σ) (taken : List Char) :
    Except Fault (Except ReadError Walk × Input σ) :=
  if w.isStuck then .ok (.ok w,⟨source,taken.reverse,false⟩)
  else do
    match ← tryRead source with
    | (.ok (some ch),source') =>
      let w ← w.tryStep g ch
      if _less : CharSource.bound source' < CharSource.bound source then
        tryReadOn g w source' (ch::taken)
      else .error .stalled
    | (.ok none,source') => return (.ok w,⟨source',taken.reverse,true⟩)
    | (.error e,source') => return (.error e,⟨source',taken.reverse,false⟩)
termination_by CharSource.bound source

def tryWalk (g : Grammar) (i : Input σ) : Except Fault (Except ReadError Walk × Input σ) := do
  let w ← (Walk.start g).tryRun g i.pending
  if w.isStuck || i.ended then return (.ok w,i)
  else tryReadOn tryRead g w i.source i.pending.reverse

def tryLongest (g : Grammar) (i : Input σ) :
    Except Fault (Except ReadError Longest × Input σ) := do
  match ← i.tryWalk tryRead g with
  | (.ok w,i) => return (.ok (.ofWalk w i.pending),i)
  | (.error e,i) => return (.error e,i)

end Input

namespace OpenComment

def tryFinishLine (h : Head σ) (c : OpenComment) :
    Except Fault (Except ReadError Unit × Head σ × OpenComment) := do
  match ← h.input.tryPeek tryRead with
  | (.error e,input) => return (.error e,{h with input},c)
  | (.ok none,input) => return (.ok (),{h with input},c)
  | (.ok (some ch),input) =>
    if endsLine ch then return (.ok (),{h with input},c)
    else
      let h' ← Head.tryConsume {h with input} 1
      if _less : h'.bound < h.bound then tryFinishLine h' {c with text := c.text.push ch}
      else .error .stalled
termination_by h.bound

def tryFinishBlock (g : Grammar) (settings : Settings) (h : Head σ) (c : OpenComment) :
    Except Fault (Except ReadError Ending × Head σ × OpenComment) := do
  match ← h.input.tryLongest tryRead g with
  | (.error e,input) => return (.error e,{h with input},c)
  | (.ok found,input) =>
    let h' : Head σ := {h with input}
    match ← Reaction.tryOfLongest settings.nestedBlockComments c.depth found with
    | .cutOff => return (.ok .cutOff,h',c)
    | .close length =>
      let after ← h'.tryConsume length
      return (.ok .closed,after,
        if settings.commentText = .withDelimiters then c.append (h'.ahead length) else c)
    | .take length depth =>
      let after ← h'.tryConsume length
      if _less : after.bound < h.bound then
        tryFinishBlock g settings after {c.append (h'.ahead length) with depth}
      else .error .stalled
termination_by h.bound

end OpenComment

namespace Tokenizer

def tryFinishComment (t : Tokenizer σ) (c : OpenComment) : Except Fault (Turn σ) :=
  if c.symbol.kind = .commentLineStart then do
    t.tryFinishing .commentLineRead (fun _ _ => []) (← OpenComment.tryFinishLine tryRead t.head c)
  else do
    t.tryFinishing .commentBlockRead cutOffEvents
      (← OpenComment.tryFinishBlock tryRead t.grammar t.settings t.head c)

def tryAccept (t : Tokenizer σ) : Longest → Except Fault (Turn σ)
  | .atEnd => t.tryAtEnd
  | .nothing => do
    let text := String.ofList (t.head.ahead 1)
    let head ← t.head.tryConsume 1
    let symbol ← t.grammar.tryError
    tryDelivered {t with head} [.lexicalError text t.position]
      .lexicalError ⟨symbol,text,t.position⟩
  | .found m => do
    let text := String.ofList (t.head.ahead m.length)
    let head ← t.head.tryConsume m.length
    if m.symbol.kind = .commentLineStart ∨ m.symbol.kind = .commentBlockStart then
      let shown := if t.settings.commentText = .withDelimiters then text else ""
      tryFinishComment tryRead {t with head} ⟨m.symbol,shown,t.position,1⟩
    else tryDelivered {t with head} [] .tokenRead ⟨m.symbol,text,t.position⟩

def tryNext (t : Tokenizer σ) : Except Fault (Turn σ) :=
  match t.openComment with
  | some c => t.tryFinishComment tryRead c
  | none =>
    if t.exhausted then t.tryAtEnd
    else do
      match ← t.head.input.tryLongest tryRead t.grammar with
      | (.error e,input) => return failedRead {t with head := {t.head with input}} e
      | (.ok found,input) => tryAccept tryRead {t with head := {t.head with input}} found

def tryPerform (t : Tokenizer σ) : Operation → Except Fault (Step σ)
  | .next => do
    let turn ← t.tryNext tryRead
    return ⟨.next,some turn.result,turn.tokenizer⟩
  | .iterate =>
    if t.isDone then .ok ⟨.iterate,none,t⟩
    else do
      let turn ← t.tryNext tryRead
      return ⟨.iterate,some turn.result,{turn.tokenizer with failed := !turn.result.isOk}⟩
  | .configure settings => .ok ⟨.configure settings,none,t.configure settings⟩

def trySession (t : Tokenizer σ) : List Operation → Except Fault (List (Step σ))
  | [] => .ok []
  | op::ops => do
    let step ← t.tryPerform tryRead op
    return step::(← trySession step.tokenizer ops)

end Tokenizer
end Munch
