import Munch.Proofs.Catalogue
import Munch.Proofs.Session

/-! Messages and kinds. The kind of a token's symbol decides about the message that comes
with it, and a comment that a failure has left open was opened by a symbol that opens
comments. Main statement: whatever the operations on a tokenizer and whatever its source
does, every answer carries a listed symbol, and its message is the one for the kind of
that symbol. -/
namespace Munch

/- The message that comes with a symbol of a kind. None does with a nonterminal. -/
def SymbolKind.message? : SymbolKind → Option Message
  | .terminal | .whiteSpace | .commentBlockEnd => some .tokenRead
  | .commentLineStart => some .commentLineRead
  | .commentBlockStart => some .commentBlockRead
  | .error => some .lexicalError
  | .endOfInput => some .endOfInput
  | .nonterminal => none

def SymbolKind.opensComment (kind : SymbolKind) : Prop :=
  kind = .commentLineStart ∨ kind = .commentBlockStart

theorem SymbolKind.plainMessage {kind : SymbolKind} (lexical : kind.isLexical = true)
    (plain : ¬ kind.opensComment) : kind.message? = some .tokenRead := by
  cases kind with
  | terminal | whiteSpace | commentBlockEnd => rfl
  | commentLineStart => exact absurd (.inl rfl) plain
  | commentBlockStart => exact absurd (.inr rfl) plain
  | nonterminal | error | endOfInput => cases lexical

/- An answer carries a listed symbol, with the message for its kind. -/
structure Grammar.Tells (g : Grammar) (scan : Scan) : Prop where
  lists : g.Lists scan.token.symbol
  message : scan.token.symbol.kind.message? = some scan.message

/- How the message of an answer and the kind of its symbol belong together. -/
structure Scan.Fits (g : Grammar) (scan : Scan) : Prop where
  lists : g.symbol? scan.token.symbol.id = some scan.token.symbol
  tokenRead : scan.message = .tokenRead ↔ scan.token.symbol.kind = .terminal ∨
    scan.token.symbol.kind = .whiteSpace ∨ scan.token.symbol.kind = .commentBlockEnd
  commentLineRead : scan.message = .commentLineRead ↔
    scan.token.symbol.kind = .commentLineStart
  commentBlockRead : scan.message = .commentBlockRead ↔
    scan.token.symbol.kind = .commentBlockStart
  lexicalError : scan.message = .lexicalError ↔ scan.token.symbol = g.errorSymbol
  errorKind : scan.token.symbol = g.errorSymbol ↔ scan.token.symbol.kind = .error
  endOfInput : scan.message = .endOfInput ↔ scan.token.symbol = g.endSymbol
  endKind : scan.token.symbol = g.endSymbol ↔ scan.token.symbol.kind = .endOfInput
  shown : scan.token.symbol.kind ≠ .nonterminal

theorem SymbolKind.messageKinds {kind : SymbolKind} {message : Message}
    (told : kind.message? = some message) :
    (message = .tokenRead ↔ kind = .terminal ∨ kind = .whiteSpace ∨ kind = .commentBlockEnd) ∧
      (message = .commentLineRead ↔ kind = .commentLineStart) ∧
      (message = .commentBlockRead ↔ kind = .commentBlockStart) ∧
      (message = .lexicalError ↔ kind = .error) ∧ (message = .endOfInput ↔ kind = .endOfInput) ∧
      kind ≠ .nonterminal := by
  cases kind <;> cases told <;> simp

theorem Grammar.Tells.fits {d : Draft} {g : Grammar} {scan : Scan} (c : d.Compiled g)
    (tells : g.Tells scan) : scan.Fits g := by
  obtain ⟨tokenRead,lineRead,blockRead,lexicalError,endOfInput,shown⟩ :=
    SymbolKind.messageKinds tells.message
  have error := c.errorKind tells.lists
  have ending := c.endKind tells.lists
  exact ⟨tells.lists,tokenRead,lineRead,blockRead,lexicalError.trans error,error.symm,
    endOfInput.trans ending,ending.symm,shown⟩

namespace Tokenizer
variable {σ : Type}

/- A tokenizer whose open comment, if there is one, has been opened by a listed symbol that
opens comments. -/
structure Fitting (g : Grammar) (t : Tokenizer σ) : Prop where
  grammar : t.grammar = g
  parked : ∀ c, t.openComment = some c → g.Lists c.symbol ∧ c.symbol.kind.opensComment

end Tokenizer

structure Turn.Fitting {σ : Type} (g : Grammar) (turn : Turn σ) : Prop where
  tokenizer : turn.tokenizer.Fitting g
  tells : ∀ scan, turn.result = .ok scan → g.Tells scan

namespace Tokenizer
variable {σ : Type} {g : Grammar} {t : Tokenizer σ}

theorem Fitting.moved (fitting : t.Fitting g) (head : Head σ) :
    Fitting g {t with head} := ⟨fitting.grammar,fitting.parked⟩

theorem deliveredFitting (fitting : t.Fitting g) (events : List Event) {message : Message}
    (token : Token) (tells : g.Tells ⟨message,token⟩) :
    (t.delivered events message token).Fitting g := by
  refine ⟨fitting,fun scan answers => ?_⟩
  cases answers
  exact tells

theorem failedReadFitting (fitting : t.Fitting g) (e : ReadError) :
    (t.failedRead e).Fitting g := ⟨fitting,nofun⟩

theorem atEndFitting {d : Draft} (c : d.Compiled g) (fitting : t.Fitting g) :
    t.atEnd.Fitting g := by
  refine ⟨⟨fitting.grammar,fitting.parked⟩,fun scan answers => ?_⟩
  cases answers
  have kind := (c.endKind c.endListed).mpr rfl
  constructor <;> simp only [fitting.grammar]
  · exact c.endListed
  · rw [kind]
    rfl

theorem finishingFitting {α : Type} (grammar : t.grammar = g) {message : Message}
    {events : α → OpenComment → List Event}
    {outcome : Except ReadError α × Head σ × OpenComment} (lists : g.Lists outcome.2.2.symbol)
    (opens : outcome.2.2.symbol.kind.opensComment)
    (told : outcome.2.2.symbol.kind.message? = some message) :
    (t.finishing message events outcome).Fitting g := by
  obtain ⟨result,head,c⟩ := outcome
  cases result with
  | error e =>
    refine failedReadFitting (t := {t with head,openComment := some c}) ⟨grammar,?_⟩ e
    intro c' parked
    cases parked
    exact ⟨lists,opens⟩
  | ok a =>
    exact deliveredFitting (t := {t with head,openComment := none}) ⟨grammar,nofun⟩ _
      ⟨c.symbol,c.text,c.start⟩ ⟨lists,told⟩

variable [CharSource σ]

theorem finishCommentFitting (grammar : t.grammar = g) {c : OpenComment}
    (lists : g.Lists c.symbol) (opens : c.symbol.kind.opensComment) :
    (t.finishComment c).Fitting g := by
  by_cases isLine : c.symbol.kind = .commentLineStart
  · have kept := (OpenComment.finishLineKept t.head c).1
    rw [finishCommentLine isLine]
    apply finishingFitting grammar <;> rw [kept]
    · exact lists
    · exact opens
    · rw [isLine]
      rfl
  · have kept := (OpenComment.finishBlockKept t.grammar t.settings t.head c).1
    have isBlock := opens.resolve_left isLine
    rw [finishCommentBlock isLine]
    apply finishingFitting grammar <;> rw [kept]
    · exact lists
    · exact opens
    · rw [isBlock]
      rfl

theorem acceptFitting {d : Draft} (c : d.Compiled g) (fitting : t.Fitting g) {found : Longest}
    (longest : found = g.longest t.head.input.pending) : (t.accept found).Fitting g := by
  cases found with
  | atEnd => exact atEndFitting c fitting
  | nothing =>
    have kind := (c.errorKind c.errorListed).mpr rfl
    refine deliveredFitting (fitting.moved _) _ _ ?_
    constructor <;> simp only [fitting.grammar]
    · exact c.errorListed
    · rw [kind]
      rfl
  | found m =>
    obtain ⟨lists,lexical⟩ := c.listsMatched (Grammar.longestFound.mp longest.symm).found
    simp only [accept]
    split
    · rename_i opens
      exact finishCommentFitting (t := {t with head := t.head.consume m.length}) fitting.grammar
        (c := ⟨m.symbol,_,t.position,1⟩) lists opens
    · rename_i plain
      have tells : m.symbol.kind.message? = some .tokenRead :=
        SymbolKind.plainMessage lexical plain
      exact deliveredFitting (fitting.moved _) _ ⟨m.symbol,_,_⟩ ⟨lists,tells⟩

theorem nextFitting {d : Draft} (c : d.Compiled g) (fitting : t.Fitting g) :
    t.next.Fitting g := by
  cases parked : t.openComment with
  | some comment =>
    obtain ⟨lists,opens⟩ := fitting.parked comment parked
    rw [nextParked parked]
    exact finishCommentFitting fitting.grammar lists opens
  | none =>
    cases done : t.exhausted with
    | true =>
      rw [nextExhausted parked done]
      exact atEndFitting c fitting
    | false =>
      cases longest : t.head.input.longest t.grammar with
      | mk answer input =>
        rw [nextScanning parked done longest]
        cases answer with
        | error e => exact failedReadFitting (fitting.moved _) e
        | ok found =>
          have here := Input.longestHere longest
          rw [fitting.grammar] at here
          exact acceptFitting c (fitting.moved _) here

theorem performFitting {d : Draft} (c : d.Compiled g) (fitting : t.Fitting g) (op : Operation) :
    (t.perform op).tokenizer.Fitting g ∧
      ∀ scan, (t.perform op).result = some (.ok scan) → g.Tells scan := by
  have next := nextFitting c fitting
  have performs := t.performs op
  generalize t.perform op = step at performs ⊢
  cases performs with
  | quiet op settings => exact ⟨⟨fitting.grammar,fitting.parked⟩,nofun⟩
  | called op failed =>
    exact ⟨⟨next.tokenizer.grammar,next.tokenizer.parked⟩,
      fun scan answers => next.tells scan (Option.some.inj answers)⟩

theorem sessionFits {d : Draft} {g : Grammar} (compiles : d.compile = .ok g)
    (settings : Settings) (source : σ) {ops : List Operation} {step : Step σ}
    (member : step ∈ ((ofSource g source).configure settings).session ops) {scan : Scan}
    (answers : step.result = some (.ok scan)) : scan.Fits g := by
  have c := Draft.compiled compiles
  have start : ((ofSource g source).configure settings).Fitting g := ⟨rfl,nofun⟩
  obtain ⟨u,op,fitting,rfl⟩ := sessionInvariant start
    (fun u op fitting => (performFitting c fitting op).1) member
  exact ((performFitting c fitting op).2 scan answers).fits c

/- A word that a failure has parted. -/
theorem sessionFitsSample : ∃ (g : Grammar) (step : Step Script) (scan : Scan),
    Draft.sample.compile = .ok g ∧
      step ∈ ((ofSource g ⟨[.ok (some 'a'),.error ⟨.timedOut,""⟩,.ok (some 'b'),
        .ok (some '/'),.ok none]⟩).configure {}).session [.next,.configure ⟨.contentOnly,true⟩,.next] ∧
      step.result = some (.ok scan) ∧
      scan = ⟨.tokenRead,⟨⟨2,"word",.terminal⟩,"ab",⟨0,1,1⟩⟩⟩ ∧ scan.Fits g := by
  obtain ⟨g,compiles⟩ := Draft.sampleCompiles
  let source : Script := ⟨[.ok (some 'a'),.error ⟨.timedOut,""⟩,.ok (some 'b'),.ok (some '/'),
    .ok none]⟩
  have results : (((ofSource g source).configure {}).session
        [.next,.configure ⟨.contentOnly,true⟩,.next]).map Step.result =
      [some (.error ⟨.readFailure ⟨.timedOut,""⟩,some ⟨0,1,1⟩⟩),none,
        some (.ok ⟨.tokenRead,⟨⟨2,"word",.terminal⟩,"ab",⟨0,1,1⟩⟩⟩)] :=
    Draft.ofCompile (f := fun g => (((ofSource g source).configure {}).session
      [.next,.configure ⟨.contentOnly,true⟩,.next]).map Step.result) compiles (by cbv)
  have among : some (.ok ⟨.tokenRead,⟨⟨2,"word",.terminal⟩,"ab",⟨0,1,1⟩⟩⟩) ∈
      (((ofSource g source).configure {}).session
        [.next,.configure ⟨.contentOnly,true⟩,.next]).map Step.result := by
    rw [results]
    exact .tail _ (.tail _ (.head _))
  obtain ⟨step,member,answers⟩ := List.mem_map.mp among
  exact ⟨g,step,_,compiles,member,answers,rfl,sessionFits compiles {} source member answers⟩

end Tokenizer
end Munch
