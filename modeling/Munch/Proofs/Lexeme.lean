import Munch.Proofs.Resume

/-! The piece of a text that the tokenizer takes next, as a function of the text alone.
Main statement: where nothing is left to be asked of a source, a call takes exactly
this piece, answers with its token and moves on behind it. -/
namespace Munch

namespace Head
variable {σ : Type}

theorem consumeZero (h : Head σ) : h.consume 0 = h := rfl

theorem aheadZero (h : Head σ) : h.ahead 0 = [] := rfl

theorem aheadAdd (h : Head σ) (a b : Nat) : h.ahead (a+b) = h.ahead a ++ (h.consume a).ahead b := by
  simp only [ahead,consume,Input.drop,List.take_add]

theorem consumeAdd (h : Head σ) (a b : Nat) : h.consume (a+b) = (h.consume a).consume b := by
  have run := aheadAdd h a b
  simp only [consume] at run ⊢
  rw [run,Cursor.advanceAllAppend]
  simp only [Input.drop,List.drop_drop]

theorem consumeIndex {h : Head σ} {count : Nat} (within : count ≤ h.input.pending.length) :
    (h.consume count).position.index = h.position.index+count := by
  simp only [position,consume,Cursor.advanceAllIndex,ahead,List.length_take,Nat.min_eq_left within]

end Head

namespace OpenComment

theorem appendNil (c : OpenComment) : c.append [] = c := by
  simp [append]

theorem appendAppend (c : OpenComment) (a b : List Char) :
    (c.append a).append b = c.append (a ++ b) := by
  simp [append,String.append_assoc]

def lineLength (text : List Char) : Nat := (text.takeWhile fun ch => !endsLine ch).length

theorem lineLengthLe (text : List Char) : lineLength text ≤ text.length :=
  (List.takeWhile_sublist _).length_le

/- How far the body of a block comment goes: the characters before the marker that
closes it, and the length of that marker, if there is one. -/
structure Body where
  length : Nat
  marker : Option Nat
  deriving DecidableEq, Repr

namespace Body

def span (b : Body) : Nat := b.length+b.marker.getD 0

/- How much of it a comment token shows behind the marker that opens the comment. -/
def shown (b : Body) (commentText : CommentText) : Nat :=
  if commentText = .withDelimiters then b.span else b.length

def ending (b : Body) : Ending := if b.marker.isSome then .closed else .cutOff

/- A body that begins a number of characters earlier. -/
def behind (b : Body) (count : Nat) : Body := ⟨count+b.length,b.marker⟩

theorem spanBehind (b : Body) (count : Nat) : (b.behind count).span = count+b.span :=
  Nat.add_assoc _ _ _

theorem shownBehind (b : Body) (count : Nat) (commentText : CommentText) :
    (b.behind count).shown commentText = count+b.shown commentText := by
  unfold shown
  split
  · exact b.spanBehind count
  · rfl

end Body

def body (g : Grammar) (nested : Bool) (depth : Nat) (text : List Char) : Body :=
  match _reaction : Reaction.ofLongest nested depth (g.longest text) with
  | .cutOff => ⟨0,none⟩
  | .close length => ⟨0,some length⟩
  | .take length after => (body g nested after (text.drop length)).behind length
termination_by text.length
decreasing_by
  obtain ⟨_,positive⟩ := Reaction.ofLongestTake _reaction
  have := Reaction.within rfl _reaction
  simp only [Reaction.length] at this
  rw [List.length_drop]
  omega

theorem Reaction.cutOffAtEnd {g : Grammar} {nested : Bool} {depth : Nat} {text : List Char}
    (reacts : ofLongest nested depth (g.longest text) = cutOff) : text = [] := by
  cases result : g.longest text with
  | atEnd => exact Grammar.longestAtEnd.mp result
  | nothing => rw [result] at reacts; cases reacts
  | found m =>
    rw [result] at reacts
    simp only [ofLongest] at reacts
    repeat' split at reacts
    all_goals cases reacts

theorem bodyWithin (g : Grammar) (nested : Bool) (depth : Nat) (text : List Char) :
    (body g nested depth text).span ≤ text.length := by
  fun_induction body g nested depth text with
  | case1 => exact Nat.zero_le _
  | case2 depth text length reaction =>
    have within := Reaction.within rfl reaction
    simpa [Body.span,Reaction.length] using within
  | case3 depth text length after reaction ih =>
    have within : length ≤ text.length := Reaction.within rfl reaction
    rw [List.length_drop] at ih
    rw [Body.spanBehind]
    omega

theorem bodyCutOff {g : Grammar} {nested : Bool} {depth : Nat} {text : List Char}
    (cut : (body g nested depth text).marker = none) :
    (body g nested depth text).length = text.length := by
  fun_induction body g nested depth text with
  | case1 depth text reaction => rw [Reaction.cutOffAtEnd reaction]; rfl
  | case2 => cases cut
  | case3 depth text length after reaction ih =>
    have within : length ≤ text.length := Reaction.within rfl reaction
    have tail := ih cut
    rw [List.length_drop] at tail
    simp only [Body.behind,tail]
    omega

/- The body, read in a number of steps. -/
def bodyIn (g : Grammar) (nested : Bool) : Nat → Nat → List Char → Body
  | 0,_,_ => ⟨0,none⟩
  | steps+1,depth,text => match Reaction.ofLongest nested depth (g.longest text) with
    | .cutOff => ⟨0,none⟩
    | .close length => ⟨0,some length⟩
    | .take length after => (bodyIn g nested steps after (text.drop length)).behind length

theorem bodyInEnough {g : Grammar} {nested : Bool} {steps depth : Nat} {text : List Char}
    (enough : text.length < steps) :
    body g nested depth text = bodyIn g nested steps depth text := by
  fun_induction body g nested depth text generalizing steps with
  | case1 depth text reaction =>
    cases steps with
    | zero => cases enough
    | succ steps => rw [bodyIn,reaction]
  | case2 depth text length reaction =>
    cases steps with
    | zero => cases enough
    | succ steps => rw [bodyIn,reaction]
  | case3 depth text length after reaction ih =>
    cases steps with
    | zero => cases enough
    | succ steps =>
      have positive := (Reaction.ofLongestTake reaction).2
      have within : length ≤ text.length := Reaction.within rfl reaction
      have fewer : (text.drop length).length < steps := by
        rw [List.length_drop]
        omega
      rw [bodyIn,reaction,ih fewer]

section
variable {σ : Type} [CharSource σ]

theorem finishLineExtent {h : Head σ} {text : List Char} (ended : h.input.ended = true)
    (pending : h.input.pending = text) (c : OpenComment) :
    finishLine h c =
      (.ok (),h.consume (lineLength text),c.append (h.ahead (lineLength text))) := by
  have shown := Input.peekEnded ended
  rw [pending] at shown
  induction text generalizing h c with
  | nil =>
    rw [finishLineEnd shown,lineLength,List.takeWhile_nil,List.length_nil,Head.consumeZero,
      Head.aheadZero,appendNil]
  | cons ch rest ih =>
    rw [finishLineMore shown]
    cases ends : endsLine ch with
    | true =>
      have none : lineLength (ch::rest) = 0 := by simp [lineLength,ends]
      rw [none,Head.consumeZero,Head.aheadZero,appendNil]
      rfl
    | false =>
      have more : lineLength (ch::rest) = 1+lineLength rest := by
        simp [lineLength,ends,Nat.add_comm]
      have dropped : (h.consume 1).input.pending = rest := by
        simp [Head.consume,Input.drop,pending]
      have tail := ih (h := h.consume 1) ended dropped {c with text := c.text.push ch}
        (by rw [← dropped]; exact Input.peekEnded (i := (h.consume 1).input) ended)
      have one : h.ahead 1 = [ch] := by simp [Head.ahead,pending]
      have pushed : {c with text := c.text.push ch} = c.append [ch] := by
        rw [append,String.push_eq_append,String.singleton_eq_ofList]
      rw [pushed] at tail
      rw [more,Head.consumeAdd,Head.aheadAdd,one,← appendAppend,← tail,if_neg (by simp),pushed]

theorem finishBlockEnded {g : Grammar} {settings : Settings} {h : Head σ} {text : List Char}
    (ended : h.input.ended = true) (pending : h.input.pending = text) (c : OpenComment) :
    finishBlock g settings h c =
      match Reaction.ofLongest settings.nestedBlockComments c.depth (g.longest text) with
      | .cutOff => (.ok .cutOff,h,c)
      | .close length => (.ok .closed,h.consume length,
          if settings.commentText = .withDelimiters then c.append (h.ahead length) else c)
      | .take length depth => finishBlock g settings (h.consume length)
          {c.append (h.ahead length) with depth} := by
  rw [← pending]
  exact finishBlockFound (Input.longestEnded g ended)

theorem finishBlockExtent {g : Grammar} {settings : Settings} {h : Head σ} {c : OpenComment}
    {nested : Bool} {depth : Nat} {text : List Char}
    (ended : h.input.ended = true) (pending : h.input.pending = text)
    (sameNested : settings.nestedBlockComments = nested) (sameDepth : c.depth = depth) :
    ∃ c', finishBlock g settings h c =
        (.ok (body g nested depth text).ending,h.consume (body g nested depth text).span,c') ∧
      c'.symbol = c.symbol ∧ c'.start = c.start ∧
      c'.text = c.text ++
        String.ofList (h.ahead ((body g nested depth text).shown settings.commentText)) := by
  fun_induction body g nested depth text generalizing h c with
  | case1 depth text reaction =>
    rw [finishBlockEnded ended pending,sameNested,sameDepth,reaction]
    refine ⟨c,rfl,rfl,rfl,?_⟩
    simp [Body.shown,Body.span,Head.aheadZero]
  | case2 depth text length reaction =>
    rw [finishBlockEnded ended pending,sameNested,sameDepth,reaction]
    have span : Body.span ⟨0,some length⟩ = length := Nat.zero_add _
    by_cases whole : settings.commentText = .withDelimiters
    · refine ⟨c.append (h.ahead length),?_,rfl,rfl,?_⟩
      · simp only [if_pos whole,span,Body.ending,Option.isSome_some,if_true]
      · simp only [Body.shown,if_pos whole,span,append]
    · refine ⟨c,?_,rfl,rfl,?_⟩
      · simp only [if_neg whole,span,Body.ending,Option.isSome_some,if_true]
      · simp [Body.shown,if_neg whole,Head.aheadZero]
  | case3 depth text length after reaction ih =>
    rw [finishBlockEnded ended pending,sameNested,sameDepth,reaction]
    have dropped : (h.consume length).input.pending = text.drop length := by
      simp only [Head.consume,Input.drop,pending]
    obtain ⟨c',ran,symbol,start,shown⟩ := ih (h := h.consume length)
      (c := {c.append (h.ahead length) with depth := after}) ended dropped rfl
    refine ⟨c',ran.trans ?_,symbol,start,?_⟩
    · rw [Body.spanBehind,Head.consumeAdd]
      rfl
    · rw [shown,Body.shownBehind,Head.aheadAdd,String.ofList_append,← String.append_assoc]
      rfl

end
end OpenComment

/- A piece of a text: what its token says, and how many characters it takes. -/
structure Lexeme where
  message : Message
  symbol : Symbol
  shown : List Char
  length : Nat
  cutOff : Bool := false
  deriving DecidableEq, Repr

def lexeme (g : Grammar) (settings : Settings) (text : List Char) : Option Lexeme :=
  match g.longest text with
  | .atEnd => none
  | .nothing => some ⟨.lexicalError,g.errorSymbol,text.take 1,1,false⟩
  | .found m =>
    let opening := if settings.commentText = .withDelimiters then text.take m.length else []
    let behind := text.drop m.length
    if m.symbol.kind = .commentLineStart then
      let count := OpenComment.lineLength behind
      some ⟨.commentLineRead,m.symbol,opening ++ behind.take count,m.length+count,false⟩
    else if m.symbol.kind = .commentBlockStart then
      let body := OpenComment.body g settings.nestedBlockComments 1 behind
      some ⟨.commentBlockRead,m.symbol,opening ++ behind.take (body.shown settings.commentText),
        m.length+body.span,body.marker.isNone⟩
    else some ⟨.tokenRead,m.symbol,text.take m.length,m.length,false⟩

namespace Lexeme

def scan (x : Lexeme) (start : Position) : Scan :=
  ⟨x.message,⟨x.symbol,String.ofList x.shown,start⟩⟩

def events (x : Lexeme) (start : Position) : List Event :=
  (if x.message = .lexicalError then [.lexicalError (String.ofList x.shown) start] else []) ++
  (if x.cutOff then [.unterminatedComment start] else []) ++
  [.tokenScanned x.message x.symbol.name start.index x.length]

def turn {σ : Type} (x : Lexeme) (t : Tokenizer σ) : Turn σ :=
  ⟨.ok (x.scan t.position),x.events t.position,{t with head := t.head.consume x.length}⟩

end Lexeme

theorem lexemeNone {g : Grammar} {settings : Settings} {text : List Char} :
    lexeme g settings text = none ↔ text = [] := by
  rw [← Grammar.longestAtEnd (g := g),lexeme]
  cases g.longest text with
  | atEnd => simp
  | nothing => simp
  | found m =>
    dsimp only
    repeat' split
    all_goals simp

theorem lexemeExtent {g : Grammar} {settings : Settings} {text : List Char} {x : Lexeme}
    (here : lexeme g settings text = some x) : 0 < x.length ∧ x.length ≤ text.length := by
  unfold lexeme at here
  split at here
  · cases here
  · rename_i nothing
    cases here
    exact ⟨Nat.one_pos,List.length_pos_iff.mpr (Grammar.longestNothing.mp nothing).1⟩
  · rename_i m found
    have within := Grammar.longestWithin found
    have positive := m.positive
    have line := OpenComment.lineLengthLe (text.drop m.length)
    have block := OpenComment.bodyWithin g settings.nestedBlockComments 1 (text.drop m.length)
    rw [List.length_drop] at line block
    dsimp only at here
    repeat' split at here
    all_goals cases here; dsimp only; omega

theorem lexemeBlock {g : Grammar} {settings : Settings} {text : List Char} {x : Lexeme}
    (here : lexeme g settings text = some x) (isBlock : x.message = .commentBlockRead) :
    ∃ m, g.longest text = .found m ∧ m.symbol = x.symbol ∧ x.symbol.kind = .commentBlockStart ∧
      let body := OpenComment.body g settings.nestedBlockComments 1 (text.drop m.length)
      x.length = m.length+body.span ∧ x.cutOff = body.marker.isNone := by
  unfold lexeme at here
  split at here
  · cases here
  · cases here; cases isBlock
  · rename_i m found
    dsimp only at here
    split at here
    · cases here; cases isBlock
    · split at here
      · rename_i kind
        cases here
        exact ⟨m,found,rfl,kind,rfl,rfl⟩
      · cases here; cases isBlock

theorem lexemeOfBlock {g : Grammar} {settings : Settings} {text : List Char} {m : Match}
    {b : OpenComment.Body} {steps : Nat} (found : g.longest text = .found m)
    (opens : m.symbol.kind = .commentBlockStart)
    (enough : (text.drop m.length).length < steps)
    (reads : OpenComment.bodyIn g settings.nestedBlockComments steps 1 (text.drop m.length) = b) :
    lexeme g settings text = some ⟨.commentBlockRead,m.symbol,
      (if settings.commentText = .withDelimiters then text.take m.length else []) ++
        (text.drop m.length).take (b.shown settings.commentText),
      m.length+b.span,b.marker.isNone⟩ := by
  have notLine : m.symbol.kind ≠ .commentLineStart := by
    rw [opens]
    decide
  rw [← reads,← OpenComment.bodyInEnough enough,lexeme,found]
  dsimp only
  rw [if_neg notLine,if_pos opens]

/- With its delimiters, what a token shows is all that it takes. -/
theorem lexemeShown {g : Grammar} {settings : Settings} {text : List Char} {x : Lexeme}
    (here : lexeme g settings text = some x) (whole : settings.commentText = .withDelimiters) :
    x.shown = text.take x.length := by
  unfold lexeme at here
  simp only [whole,if_true,OpenComment.Body.shown] at here
  repeat' split at here
  all_goals cases here
  all_goals first | rfl | exact List.take_add.symm

theorem lexemeMessage {g : Grammar} {settings : Settings} {text : List Char} {x : Lexeme}
    (here : lexeme g settings text = some x) : x.message ≠ .endOfInput := by
  unfold lexeme at here
  dsimp only at here
  repeat' split at here
  all_goals cases here <;> exact Message.noConfusion

namespace Tokenizer
variable {σ : Type}

theorem deliveredConsumed {t : Tokenizer σ} {count : Nat}
    (within : count ≤ t.head.input.pending.length) (events : List Event) (message : Message)
    (symbol : Symbol) (text : String) :
    delivered {t with head := t.head.consume count} events message ⟨symbol,text,t.position⟩ =
      ⟨.ok ⟨message,⟨symbol,text,t.position⟩⟩,
        events ++ [.tokenScanned message symbol.name t.position.index count],
        {t with head := t.head.consume count}⟩ := by
  have index : (t.head.consume count).position.index-t.head.position.index = count := by
    rw [Head.consumeIndex within]
    omega
  simp only [delivered,position,index]

theorem finishingConsumed {α : Type} {t : Tokenizer σ} {head : Head σ} {count : Nat}
    {c : OpenComment} (closed : t.openComment = none)
    (within : count ≤ t.head.input.pending.length) (start : c.start = t.position)
    (message : Message) (events : α → OpenComment → List Event) (a : α) :
    finishing {t with head} message events (.ok a,t.head.consume count,c) =
      ⟨.ok ⟨message,⟨c.symbol,c.text,t.position⟩⟩,
        events a c ++ [.tokenScanned message c.symbol.name t.position.index count],
        {t with head := t.head.consume count}⟩ := by
  rw [← deliveredConsumed within,finishing,start]
  simp only [closed]

variable [CharSource σ]

theorem finishLineLexeme {t : Tokenizer σ} {m : Match} {shown : List Char}
    (ended : t.head.input.ended = true) (closed : t.openComment = none)
    (within : m.length ≤ t.head.input.pending.length) (isLine : m.symbol.kind = .commentLineStart) :
    let behind := t.head.input.pending.drop m.length
    let count := OpenComment.lineLength behind
    finishComment {t with head := t.head.consume m.length}
        ⟨m.symbol,String.ofList shown,t.position,1⟩ =
      Lexeme.turn ⟨.commentLineRead,m.symbol,shown ++ behind.take count,m.length+count,false⟩ t := by
  intro behind count
  have line := OpenComment.lineLengthLe behind
  rw [List.length_drop] at line
  have left : (t.head.consume m.length).input.pending = behind := rfl
  rw [finishCommentLine isLine]
  dsimp only
  rw [OpenComment.finishLineExtent (h := t.head.consume m.length) ended left,← Head.consumeAdd,
    finishingConsumed closed (by omega) rfl]
  simp only [Lexeme.turn,Lexeme.scan,String.ofList_append]
  rfl

theorem finishBlockLexeme {t : Tokenizer σ} {m : Match} {shown : List Char}
    (ended : t.head.input.ended = true) (closed : t.openComment = none)
    (within : m.length ≤ t.head.input.pending.length)
    (isBlock : m.symbol.kind = .commentBlockStart) :
    let behind := t.head.input.pending.drop m.length
    let body := OpenComment.body t.grammar t.settings.nestedBlockComments 1 behind
    finishComment {t with head := t.head.consume m.length}
        ⟨m.symbol,String.ofList shown,t.position,1⟩ =
      Lexeme.turn ⟨.commentBlockRead,m.symbol,
        shown ++ behind.take (body.shown t.settings.commentText),m.length+body.span,
        body.marker.isNone⟩ t := by
  intro behind body
  have block := OpenComment.bodyWithin t.grammar t.settings.nestedBlockComments 1 behind
  rw [List.length_drop] at block
  rw [finishCommentBlock (by rw [isBlock]; decide)]
  dsimp only
  have left : (t.head.consume m.length).input.pending = behind := rfl
  obtain ⟨c,ran,symbol,start,text⟩ := OpenComment.finishBlockExtent (g := t.grammar)
    (h := t.head.consume m.length) ended left (Eq.refl t.settings.nestedBlockComments)
    (c := ⟨m.symbol,String.ofList shown,t.position,1⟩) (Eq.refl 1)
  rw [ran,← Head.consumeAdd,finishingConsumed closed (by omega) start]
  dsimp only at symbol start text
  have cut : cutOffEvents body.ending c =
      if body.marker.isNone then [.unterminatedComment t.position] else [] := by
    rw [cutOffEvents,OpenComment.Body.ending,start]
    cases body.marker <;> rfl
  simp only [Lexeme.turn,Lexeme.scan,String.ofList_append,symbol,text]
  change Turn.mk _ (cutOffEvents body.ending c ++ _) _ = _
  rw [cut]
  rfl

theorem nextLexeme {t : Tokenizer σ} {text : List Char} (ended : t.head.input.ended = true)
    (pending : t.head.input.pending = text) (closed : t.openComment = none)
    (live : t.exhausted = false) :
    t.next = match lexeme t.grammar t.settings text with
      | none => t.atEnd
      | some x => x.turn t := by
  subst pending
  have longest := Input.longestEnded t.grammar ended
  have called : t.next = t.accept (t.grammar.longest t.head.input.pending) :=
    nextScanning closed live longest
  rw [called,lexeme]
  cases found : t.grammar.longest t.head.input.pending with
  | atEnd => rfl
  | nothing =>
    have within := List.length_pos_iff.mpr (Grammar.longestNothing.mp found).1
    rw [accept,deliveredConsumed within]
    rfl
  | found m =>
    have within := Grammar.longestWithin found
    have opening : (if t.settings.commentText = .withDelimiters
          then String.ofList (t.head.ahead m.length) else "") =
        String.ofList (if t.settings.commentText = .withDelimiters
          then t.head.input.pending.take m.length else []) := by
      split <;> rfl
    dsimp only [accept]
    rw [opening]
    by_cases isLine : m.symbol.kind = .commentLineStart
    · rw [if_pos (.inl isLine),if_pos isLine,finishLineLexeme ended closed within isLine]
    · by_cases isBlock : m.symbol.kind = .commentBlockStart
      · rw [if_pos (.inr isBlock),if_neg isLine,if_pos isBlock,
          finishBlockLexeme ended closed within isBlock]
      · rw [if_neg (by simp [isLine,isBlock]),if_neg isLine,if_neg isBlock,deliveredConsumed within]
        rfl

end Tokenizer
end Munch
