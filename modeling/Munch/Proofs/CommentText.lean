import Munch.Proofs.Awaiting
import Munch.Proofs.BlockComment
import Munch.Proofs.EndOfInput

/-! What of a comment is shown. The outline of a tokenizer leaves out how much of a
comment is to be shown, and the text of a comment that is open; the outline of a turn
leaves out the text of a comment besides. A call on the outline gives the outline of the
call, so that what is left out has no influence on what is not. Main statement: call by
call, with or without the delimiters and whatever failures the source meets, the outlines
are the same; and the text of a comment without its delimiters is the one with them,
less the marker that opens the comment and, if it is closed, the one that closes it. -/
namespace Munch
variable {σ : Type}

namespace OpenComment

def blank (c : OpenComment) : OpenComment := {c with text := ""}

def outline {α : Type} (outcome : Except ReadError α × Head σ × OpenComment) :
    Except ReadError α × Head σ × OpenComment :=
  (outcome.1,outcome.2.1,outcome.2.2.blank)

theorem blankIff {c c' : OpenComment} :
    c.blank = c'.blank ↔ c.symbol = c'.symbol ∧ c.start = c'.start ∧ c.depth = c'.depth := by
  simp [blank]

end OpenComment

def Scan.outline (s : Scan) : Scan :=
  if s.message = .commentLineRead ∨ s.message = .commentBlockRead
  then ⟨s.message,{s.token with text := ""}⟩ else s

def Tokenizer.outline (t : Tokenizer σ) : Tokenizer σ :=
  {t with
    settings := {t.settings with commentText := .withDelimiters}
    openComment := t.openComment.map OpenComment.blank}

def Turn.outline (turn : Turn σ) : Turn σ :=
  ⟨turn.result.map Scan.outline,turn.events,turn.tokenizer.outline⟩

namespace OpenComment
variable [CharSource σ]

theorem finishLineOutline (h : Head σ) {c c' : OpenComment} (same : c.blank = c'.blank) :
    outline (finishLine h c) = outline (finishLine h c') := by
  fun_induction finishLine h c generalizing c' with
  | case1 h c e input peek =>
    rw [finishLineFails peek,outline,outline,same]
  | case2 h c input peek =>
    rw [finishLineEnd peek,outline,outline,same]
  | case3 h c ch input peek ends =>
    rw [finishLineMore peek,if_pos ends,outline,outline,same]
  | case4 h c ch input peek inside h' =>
    rename_i ih
    rw [finishLineMore peek,if_neg inside]
    exact ih same

theorem finishBlockOutline (g : Grammar) {settings settings' : Settings}
    (nested : settings.nestedBlockComments = settings'.nestedBlockComments) (h : Head σ)
    {c c' : OpenComment} (same : c.blank = c'.blank) :
    outline (finishBlock g settings h c) = outline (finishBlock g settings' h c') := by
  obtain ⟨symbol,start,depth⟩ := blankIff.mp same
  fun_induction finishBlock g settings h c generalizing c' with
  | case1 h c e input longest =>
    rw [finishBlockFails longest,outline,outline,same]
  | case2 h c found input longest h' =>
    rename_i reaction
    rw [finishBlockFound longest,← nested,← depth,reaction]
    dsimp only [outline]
    rw [same]
  | case3 h c found input longest h' length =>
    rename_i reaction
    have shown (commentText : CommentText) (c : OpenComment) :
        (if commentText = .withDelimiters then c.append (h'.ahead length) else c).blank =
          c.blank := by
      split <;> rfl
    rw [finishBlockFound longest,← nested,← depth,reaction]
    dsimp only [outline]
    rw [shown,shown,same]
  | case4 h c found input longest h' length after =>
    rename_i reaction ih
    rw [finishBlockFound longest,← nested,← depth,reaction]
    exact ih (blankIff.mpr ⟨symbol,start,rfl⟩) symbol start rfl

end OpenComment

namespace Tokenizer

theorem finishingOutline {α : Type} (t : Tokenizer σ) {message : Message}
    {events : α → OpenComment → List Event}
    (isComment : message = .commentLineRead ∨ message = .commentBlockRead)
    (blind : ∀ a c, events a c = events a c.blank)
    {one other : Except ReadError α × Head σ × OpenComment}
    (same : OpenComment.outline one = OpenComment.outline other) :
    (t.outline.finishing message events one).outline =
      (t.finishing message events other).outline := by
  obtain ⟨result,head,c⟩ := one
  obtain ⟨result',head',c'⟩ := other
  obtain ⟨alike,rest⟩ := Prod.mk.inj same
  obtain ⟨moved,blank⟩ := Prod.mk.inj rest
  dsimp only at alike moved blank
  subst alike moved
  obtain ⟨symbol,start,_⟩ := OpenComment.blankIff.mp blank
  cases result with
  | error e =>
    simp only [finishing,Turn.outline,failedRead,outline,Option.map_some,blank]
    rfl
  | ok a =>
    have log : events a c = events a c' := by rw [blind,blank,← blind]
    simp only [finishing,Turn.outline,delivered,Except.map,Scan.outline,if_pos isComment,log,symbol,
      start]
    rfl

variable [CharSource σ]

theorem finishCommentOutline (t : Tokenizer σ) {c c' : OpenComment} (same : c.blank = c'.blank) :
    (t.outline.finishComment c).outline = (t.finishComment c').outline := by
  have symbol := (OpenComment.blankIff.mp same).1
  by_cases isLine : c.symbol.kind = .commentLineStart
  · rw [finishCommentLine isLine,finishCommentLine (symbol ▸ isLine)]
    exact finishingOutline t (.inl rfl) (fun _ _ => rfl) (OpenComment.finishLineOutline _ same)
  · have nested : t.outline.settings.nestedBlockComments = t.settings.nestedBlockComments := rfl
    rw [finishCommentBlock isLine,finishCommentBlock (symbol ▸ isLine)]
    exact finishingOutline t (.inr rfl) (fun _ _ => rfl)
      (OpenComment.finishBlockOutline t.grammar nested t.head same)

theorem acceptOutline {t : Tokenizer σ} (closed : t.openComment = none) (found : Longest) :
    (t.outline.accept found).outline = (t.accept found).outline := by
  obtain ⟨grammar,settings,head,_,exhausted,failed⟩ := t
  cases closed
  cases found with
  | atEnd => rfl
  | nothing => rfl
  | found m =>
    simp only [accept]
    split
    · exact finishCommentOutline ⟨grammar,settings,head.consume m.length,none,exhausted,failed⟩ rfl
    · rfl

theorem nextOutline (t : Tokenizer σ) : t.outline.next.outline = t.next.outline := by
  cases parked : t.openComment with
  | some c =>
    have blank : t.outline.openComment = some c.blank := congrArg (Option.map _) parked
    rw [nextParked parked,nextParked blank]
    exact finishCommentOutline t rfl
  | none =>
    have closed : t.outline.openComment = none := congrArg (Option.map _) parked
    cases done : t.exhausted with
    | true =>
      rw [nextExhausted parked done,nextExhausted closed done]
      exact acceptOutline parked .atEnd
    | false =>
      cases longest : t.head.input.longest t.grammar with
      | mk answer input =>
        rw [nextScanning parked done longest,nextScanning closed done longest]
        cases answer with
        | error e =>
          have moved : outline {t.outline with head := {t.head with input}} =
              outline {t with head := {t.head with input}} := by
            simp only [outline,parked,Option.map_none]
          exact congrArg (Turn.mk _ _) moved
        | ok found => exact acceptOutline (t := {t with head := {t.head with input}}) parked found

theorem outlineNext {t u : Tokenizer σ} (same : t.outline = u.outline) :
    t.next.outline = u.next.outline := by
  rw [← nextOutline t,same,nextOutline]

end Tokenizer

/- The texts of a token at the front of a text, with its delimiters and without. -/
inductive Grammar.Stripped (g : Grammar) (nested : Bool) (text : List Char) :
    Message → String → String → Prop where
  | whole {message shown} (notLine : message ≠ .commentLineRead)
      (notBlock : message ≠ .commentBlockRead) : Stripped g nested text message shown shown
  | line {n y shown} (opens : g.Leading text n y) (kind : y.kind = .commentLineStart) :
      Stripped g nested text .commentLineRead (String.ofList (text.take n) ++ shown) shown
  | closed {n y k z shown} (comment : g.BlockComment nested text y true n (shown.length+k))
      (closes : g.Leading (text.drop (n+shown.length)) k z) (kind : z.kind = .commentBlockEnd) :
      Stripped g nested text .commentBlockRead (String.ofList (text.take n) ++ shown ++
        String.ofList ((text.drop (n+shown.length)).take k)) shown
  | cutOff {n y shown} (comment : g.BlockComment nested text y false n shown.length) :
      Stripped g nested text .commentBlockRead (String.ofList (text.take n) ++ shown) shown

namespace OpenComment

theorem bodyMarker {g : Grammar} {nested : Bool} {depth k : Nat} {text : List Char}
    (marker : (body g nested depth text).marker = some k) :
    ∃ y, g.Leading (text.drop (body g nested depth text).length) k y ∧
      y.kind = .commentBlockEnd := by
  fun_induction body g nested depth text with
  | case1 => cases marker
  | case2 depth text length reaction =>
    cases marker
    exact (Reaction.closes reaction).2
  | case3 depth text length after reaction ih =>
    have tail := ih marker
    rw [List.drop_drop] at tail
    exact tail

theorem bodyStripped {g : Grammar} {text : List Char} {m : Match} (nested : Bool)
    (found : g.longest text = .found m) (kind : m.symbol.kind = .commentBlockStart) :
    let behind := text.drop m.length
    let b := body g nested 1 behind
    g.Stripped nested text .commentBlockRead
      (String.ofList (text.take m.length ++ behind.take b.span))
      (String.ofList (behind.take b.length)) := by
  intro behind b
  have comment := bodyComment nested found kind
  have within := bodyWithin g nested 1 behind
  change g.BlockComment nested text m.symbol b.marker.isSome m.length b.span at comment
  change b.span ≤ behind.length at within
  have size : (String.ofList (behind.take b.length)).length = b.length := by
    rw [String.length_ofList,List.length_take]
    unfold Body.span at within
    omega
  cases marker : b.marker with
  | none =>
    have span : b.span = b.length := by rw [Body.span,marker]; rfl
    rw [marker,span,← size] at comment
    rw [span,String.ofList_append]
    exact .cutOff comment
  | some k =>
    have span : b.span = b.length+k := by rw [Body.span,marker]; rfl
    obtain ⟨z,closes,isEnd⟩ := bodyMarker marker
    change g.Leading (behind.drop b.length) k z at closes
    rw [List.drop_drop,← size] at closes
    have last : (behind.drop b.length).take k =
        (text.drop (m.length+(String.ofList (behind.take b.length)).length)).take k := by
      rw [size,List.drop_drop]
    rw [marker,span,← size] at comment
    rw [span,List.take_add,last,← List.append_assoc,String.ofList_append,String.ofList_append]
    exact .closed comment closes isEnd

end OpenComment

theorem lexemeStripped {g : Grammar} {nested : Bool} {text : List Char} {x : Lexeme}
    (here : lexeme g ⟨.withDelimiters,nested⟩ text = some x) :
    ∃ y, lexeme g ⟨.contentOnly,nested⟩ text = some y ∧ y.length = x.length ∧
      g.Stripped nested text x.message (String.ofList x.shown) (String.ofList y.shown) := by
  unfold lexeme at here ⊢
  cases found : g.longest text with
  | atEnd => rw [found] at here; cases here
  | nothing =>
    rw [found] at here
    cases here
    exact ⟨_,rfl,rfl,.whole nofun nofun⟩
  | found m =>
    rw [found] at here
    dsimp only at here ⊢
    by_cases isLine : m.symbol.kind = .commentLineStart
    · rw [if_pos isLine] at here ⊢
      cases here
      refine ⟨_,rfl,rfl,?_⟩
      rw [String.ofList_append]
      exact .line (Grammar.longestFound.mp found) isLine
    · by_cases isBlock : m.symbol.kind = .commentBlockStart
      · rw [if_neg isLine,if_pos isBlock] at here ⊢
        cases here
        exact ⟨_,rfl,rfl,OpenComment.bodyStripped nested found isBlock⟩
      · rw [if_neg isLine,if_neg isBlock] at here ⊢
        cases here
        exact ⟨_,rfl,rfl,.whole nofun nofun⟩

namespace Tokenizer
variable [CharSource σ]

/- Two tokenizers, one of which shows the delimiters of comments, that have the same still
to answer. -/
structure Paired (g : Grammar) (nested : Bool) (text : List Char) (t u : Tokenizer σ) : Prop where
  outline : t.outline = u.outline
  further : (t.openComment = none ∧ t.exhausted = true) ∨ ∃ offset,
    t.Awaits g ⟨.withDelimiters,nested⟩ text offset ∧
      u.Awaits g ⟨.contentOnly,nested⟩ text offset

end Tokenizer

/- Turns over one source, with the delimiters of comments and without. -/
structure Turn.Counterparts (g : Grammar) (nested : Bool) (text : List Char) (a b : Turn σ) :
    Prop where
  outline : a.outline = b.outline
  texts : ∀ one other, a.result = .ok one → b.result = .ok other →
    g.Stripped nested (text.drop one.token.position.index) one.message one.token.text
      other.token.text

theorem Scan.sameOf {one other : Scan} (outline : one.outline = other.outline)
    (notLine : one.message ≠ .commentLineRead) (notBlock : one.message ≠ .commentBlockRead) :
    one = other := by
  have message : one.message = other.message := by
    have kept (s : Scan) : s.outline.message = s.message := by
      unfold Scan.outline
      split <;> rfl
    rw [← kept one,outline,kept]
  rw [Scan.outline,Scan.outline,← message,if_neg (by simp [notLine,notBlock]),
    if_neg (by simp [notLine,notBlock])] at outline
  exact outline

namespace Turn
variable {a b : Turn σ}

theorem failureOf (outline : a.outline = b.outline) {error : Error}
    (first : a.result = .error error) : b.result = .error error := by
  have results : a.result.map Scan.outline = b.result.map Scan.outline := congrArg result outline
  rw [first] at results
  cases second : b.result with
  | error error' => rw [second] at results; cases results; rfl
  | ok other => rw [second] at results; cases results

theorem answerOf (outline : a.outline = b.outline) {one : Scan} (first : a.result = .ok one) :
    ∃ other, b.result = .ok other := by
  cases second : b.result with
  | error error => cases (failureOf outline.symm second).symm.trans first
  | ok other => exact ⟨other,rfl⟩

theorem scansOf (outline : a.outline = b.outline) {one other : Scan} (first : a.result = .ok one)
    (second : b.result = .ok other) : one.outline = other.outline := by
  have results : a.result.map Scan.outline = b.result.map Scan.outline := congrArg result outline
  rw [first,second] at results
  exact Except.ok.inj results

theorem Counterparts.of {g : Grammar} {nested : Bool} {text : List Char}
    (outline : a.outline = b.outline) {one other : Scan} (first : a.result = .ok one)
    (second : b.result = .ok other) (stripped : g.Stripped nested
      (text.drop one.token.position.index) one.message one.token.text other.token.text) :
    a.Counterparts g nested text b where
  outline := outline
  texts one' other' answers answers' := by
    cases first.symm.trans answers
    cases second.symm.trans answers'
    exact stripped

end Turn

namespace Tokenizer
variable [CharSource σ]

theorem pairedEnd {g : Grammar} {nested : Bool} {text : List Char} {t u : Tokenizer σ}
    (same : t.next.outline = u.next.outline) {one other : Scan} (first : t.next.result = .ok one)
    (second : u.next.result = .ok other) (isEnd : one.message = .endOfInput) :
    t.next.Counterparts g nested text u.next ∧
      Paired g nested text t.next.tokenizer u.next.tokenizer := by
  obtain ⟨done,closed,_,_⟩ := nextEnd first isEnd
  have notLine : one.message ≠ .commentLineRead := by rw [isEnd]; decide
  have notBlock : one.message ≠ .commentBlockRead := by rw [isEnd]; decide
  have equal : one = other := Scan.sameOf (Turn.scansOf same first second) notLine notBlock
  subst equal
  exact ⟨.of same first second (.whole notLine notBlock),congrArg Turn.tokenizer same,
    .inl ⟨closed,done⟩⟩

theorem Paired.next {g : Grammar} {nested : Bool} {text : List Char} {t u : Tokenizer σ}
    (paired : Paired g nested text t u) : t.next.Counterparts g nested text u.next ∧
      Paired g nested text t.next.tokenizer u.next.tokenizer := by
  have same := outlineNext paired.outline
  have after : t.next.tokenizer.outline = u.next.tokenizer.outline :=
    congrArg Turn.tokenizer same
  cases first : t.next.result with
  | error error =>
    -- A failed call leaves either of them where it is.
    have second := Turn.failureOf same first
    refine ⟨⟨same,fun one other answers => ?_⟩,after,.inr ?_⟩
    · cases first.symm.trans answers
    · rcases paired.further with ⟨closed,done⟩ | ⟨offset,this,that⟩
      · rw [nextExhausted closed done] at first
        cases first
      · exact ⟨offset,(this.interrupted first).2,(that.interrupted second).2⟩
  | ok one =>
    obtain ⟨other,second⟩ := Turn.answerOf same first
    rcases paired.further with ⟨closed,done⟩ | ⟨offset,this,that⟩
    · have isEnd : one.message = .endOfInput := by
        rw [nextExhausted closed done] at first
        cases first
        rfl
      exact pairedEnd same first second isEnd
    · have taken := this.answered first
      have taken' := that.answered second
      cases here : lexeme g ⟨.withDelimiters,nested⟩ (text.drop offset) with
      | none =>
        rw [here] at taken
        exact pairedEnd same first second taken.1
      | some x =>
        obtain ⟨y,there,length,stripped⟩ := lexemeStripped here
        rw [here] at taken
        rw [there] at taken'
        obtain ⟨place,index,rfl,_,this⟩ := taken
        obtain ⟨place',_,rfl,_,that⟩ := taken'
        rw [length] at that
        rw [← index] at stripped
        exact ⟨.of same first second stripped,after,.inr ⟨offset+x.length,this,that⟩⟩

theorem commentTextConfined {source : σ} {d : Delivery} (delivers : Delivers source d)
    (g : Grammar) (nested : Bool) (n : Nat) :
    List.Forall₂ (Turn.Counterparts g nested d.characters)
      (((ofSource g source).configure ⟨.withDelimiters,nested⟩).calls n)
      (((ofSource g source).configure ⟨.contentOnly,nested⟩).calls n) := by
  have paired : Paired g nested d.characters
      ((ofSource g source).configure ⟨.withDelimiters,nested⟩)
      ((ofSource g source).configure ⟨.contentOnly,nested⟩) :=
    ⟨rfl,.inr ⟨0,ofSourceAwaits delivers g _,ofSourceAwaits delivers g _⟩⟩
  generalize (ofSource g source).configure ⟨.withDelimiters,nested⟩ = t at paired ⊢
  generalize (ofSource g source).configure ⟨.contentOnly,nested⟩ = u at paired ⊢
  induction n generalizing t u with
  | zero => exact .nil
  | succ n ih => exact .cons paired.next.1 (ih _ _ paired.next.2)

/- Where the characters of a source are cut up, as many calls as there are pieces and failures
answer the pieces. -/
theorem ofSourcePlaced {source : σ} {d : Delivery} (delivers : Delivers source d) {g : Grammar}
    {settings : Settings} {lexemes : List Lexeme}
    (cuts : Cuts g settings [] d.characters lexemes) :
    (((ofSource g source).configure settings).calls
        (lexemes.length+1+d.failures.length)).filterMap Turn.scan? =
      placed .start d.characters lexemes ++
        [⟨.endOfInput,⟨g.endSymbol,"",(Cursor.start.advanceAll d.characters).position⟩⟩] := by
  obtain ⟨turns,run,scans,causes⟩ := ofSourceTranscribed delivers g settings
  rw [cuts.whole] at scans
  have count : turns.length = lexemes.length+1+d.failures.length := by
    rw [Turn.counted,scans,causes,List.length_append,placedLength,List.length_map,
      List.length_singleton]
  rw [← count,run.called,scans]

/- A source that fails within the marker that opens a comment, and in front of a comment nested
in it. -/
theorem commentTextConfinedSample : ∃ (g : Grammar) (e : ReadError) (source : Script),
    source = Script.mk [.ok (some '/'),.error e,.ok (some '*'),.error e,.ok (some '/'),
      .ok (some '*'),.ok (some 'a'),.ok (some '*'),.ok (some '/'),.ok (some '*'),.ok (some '/'),
      .ok none] ∧
    Draft.sample.compile = .ok g ∧
    (((ofSource g source).configure ⟨.withDelimiters,true⟩).calls 4).filterMap Turn.scan? =
      [⟨.commentBlockRead,⟨⟨3,"open",.commentBlockStart⟩,"/*/*a*/*/",⟨0,1,1⟩⟩⟩,
        ⟨.endOfInput,⟨⟨0,"End",.endOfInput⟩,"",⟨9,1,10⟩⟩⟩] ∧
    (((ofSource g source).configure ⟨.contentOnly,true⟩).calls 4).filterMap Turn.scan? =
      [⟨.commentBlockRead,⟨⟨3,"open",.commentBlockStart⟩,"/*a*/",⟨0,1,1⟩⟩⟩,
        ⟨.endOfInput,⟨⟨0,"End",.endOfInput⟩,"",⟨9,1,10⟩⟩⟩] ∧
    List.Forall₂ (Turn.Counterparts g true "/*/*a*/*/".toList)
      (((ofSource g source).configure ⟨.withDelimiters,true⟩).calls 4)
      (((ofSource g source).configure ⟨.contentOnly,true⟩).calls 4) := by
  obtain ⟨g,compiles⟩ := Draft.sampleCompiles
  let e : ReadError := ⟨.timedOut,""⟩
  let answers : Delivery := [.ok '/',.error e,.ok '*',.error e,.ok '/',.ok '*',.ok 'a',.ok '*',
    .ok '/',.ok '*',.ok '/']
  have delivers := Script.delivers answers []
  have opens : g.longest "/*/*a*/*/".toList =
      .found ⟨2,⟨3,"open",.commentBlockStart⟩,Nat.two_pos⟩ :=
    Draft.ofCompile (f := fun g => g.longest "/*/*a*/*/".toList) compiles (by cbv)
  have body : OpenComment.bodyIn g true 8 1 "/*a*/*/".toList = ⟨5,some 2⟩ :=
    Draft.ofCompile (f := fun g => OpenComment.bodyIn g true 8 1 "/*a*/*/".toList) compiles (by cbv)
  have cuts (shown : CommentText) : Cuts g ⟨shown,true⟩ [] answers.characters [_] :=
    .more (lexemeOfBlock opens rfl (by decide) body) (Nat.le_refl 9) .done
  refine ⟨g,e,_,rfl,compiles,?_,?_,commentTextConfined delivers g true 4⟩
  · refine (ofSourcePlaced delivers (cuts .withDelimiters)).trans ?_
    rw [Draft.sampleEnd compiles]
    rfl
  · refine (ofSourcePlaced delivers (cuts .contentOnly)).trans ?_
    rw [Draft.sampleEnd compiles]
    rfl

end Tokenizer
end Munch
