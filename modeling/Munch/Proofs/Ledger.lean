import Munch.Proofs.Awaiting
import Munch.Proofs.BlockComment
import Munch.Proofs.EndOfInput

/-! What the log of a run accounts for. Each token is noted once, with the place where it
begins and the number of characters it takes; a lexical error and a comment that the end
of the input cuts off are noted in front of their tokens; a failed call notes nothing, and
the end is noted once. Main statement: over a source with failures anywhere, the noted
spans follow one another from the beginning of the text to its end, however often a call
has to be retried. -/
namespace Munch

/- The span of a noted token: where it begins and its length. -/
def Event.span? : Event → Option (Nat × Nat)
  | .tokenScanned _ _ index length => some (index,length)
  | _ => none

def Event.isExhausted : Event → Bool
  | .sourceExhausted _ => true
  | _ => false

def Event.isUnterminated : Event → Bool
  | .unterminatedComment _ => true
  | _ => false

section
variable {σ : Type}

def log (turns : List (Turn σ)) : List Event := turns.flatMap Turn.events

def spans (turns : List (Turn σ)) : List (Nat × Nat) := (log turns).filterMap Event.span?

def extent : List (Nat × Nat) → Nat
  | [] => 0
  | (_,length)::rest => length+extent rest

theorem logCons (turn : Turn σ) (turns : List (Turn σ)) :
    log (turn::turns) = turn.events ++ log turns := List.flatMap_cons

theorem logSilent {turns : List (Turn σ)} (silent : ∀ turn ∈ turns, turn.events = []) :
    log turns = [] := by
  simpa only [log,List.flatMap_eq_nil_iff] using silent

theorem spansCons (turn : Turn σ) (turns : List (Turn σ)) :
    spans (turn::turns) = turn.events.filterMap Event.span? ++ spans turns := by
  rw [spans,logCons,List.filterMap_append]
  rfl

end

/- What is noted in front of a token. -/
inductive Scan.Notes (g : Grammar) (nested : Bool) (text : List Char) (scan : Scan) :
    List Event → Prop where
  | lexicalError (isError : scan.message = .lexicalError) :
      Notes g nested text scan [.lexicalError scan.token.text scan.token.position]
  | cutOff (isBlock : scan.message = .commentBlockRead)
      (cut : g.CutOff nested (text.drop scan.token.position.index)) :
      Notes g nested text scan [.unterminatedComment scan.token.position]
  | nothing (notError : scan.message ≠ .lexicalError)
      (ends : scan.message = .commentBlockRead →
        ¬ g.CutOff nested (text.drop scan.token.position.index)) :
      Notes g nested text scan []

def Scan.noted (scan : Scan) (length : Nat) : Event :=
  .tokenScanned scan.message scan.token.symbol.name scan.token.position.index length

theorem Scan.Notes.unspanned {g : Grammar} {nested : Bool} {text : List Char} {scan : Scan}
    {notes : List Event} (notes' : scan.Notes g nested text notes) :
    notes.filterMap Event.span? = [] ∧ notes.filter Event.isExhausted = [] := by
  cases notes' <;> exact ⟨rfl,rfl⟩

namespace Lexeme
variable {g : Grammar} {settings : Settings} {text : List Char} {x : Lexeme}

theorem cutOffBlock (here : lexeme g settings text = some x) (cut : x.cutOff = true) :
    x.message = .commentBlockRead := by
  unfold lexeme at here
  dsimp only at here
  repeat' split at here
  all_goals cases here
  all_goals first | rfl | cases cut

theorem notes {place : Position} (here : lexeme g settings (text.drop place.index) = some x) :
    ∃ notes, (x.scan place).Notes g settings.nestedBlockComments text notes ∧
      x.events place = notes ++ [(x.scan place).noted x.length] ∧
      (notes.any Event.isUnterminated = true → place.index+x.length = text.length) := by
  have extent := lexemeExtent here
  rw [List.length_drop] at extent
  by_cases isBlock : x.message = .commentBlockRead
  · obtain ⟨n,count,length,comment⟩ := blockComment here isBlock
    have notError : x.message ≠ .lexicalError := by rw [isBlock]; decide
    cases cut : x.cutOff with
    | true =>
      rw [cut] at comment
      have whole := comment.cutOff rfl
      rw [List.length_drop] at whole
      refine ⟨_,.cutOff isBlock ⟨_,_,_,comment⟩,?_,fun _ => by omega⟩
      rw [events,if_neg notError,if_pos cut]
      rfl
    | false =>
      refine ⟨[],.nothing notError fun _ still => ?_,?_,fun cut => (by cases cut)⟩
      · rw [cut] at comment
        cases comment.cutOffIff.mp still
      · rw [events,if_neg notError,if_neg (by rw [cut]; decide)]
        rfl
  · have uncut : x.cutOff ≠ true := fun cut => isBlock (cutOffBlock here cut)
    by_cases isError : x.message = .lexicalError
    · refine ⟨_,.lexicalError isError,?_,fun cut => (by cases cut)⟩
      rw [events,if_pos isError,if_neg uncut]
      rfl
    · refine ⟨[],.nothing isError fun is => absurd is isBlock,?_,fun cut => (by cases cut)⟩
      rw [events,if_neg isError,if_neg uncut]
      rfl

end Lexeme

/- Calls that go through a text from a place in it to its end, as their log tells. -/
inductive Logged {σ : Type} (g : Grammar) (nested : Bool) (text : List Char) :
    Nat → List (Turn σ) → Prop where
  | ended {turn turns} (isEnd : turn.IsEnd) (logs : turn.events = [.sourceExhausted text.length])
      (silent : ∀ later ∈ turns, later.IsEnd ∧ later.events = []) :
      Logged g nested text text.length (turn::turns)
  | failed {start turn turns error} (fails : turn.result = .error error)
      (silent : turn.events = []) (rest : Logged g nested text start turns) :
      Logged g nested text start (turn::turns)
  | token {turn turns scan notes length} (answers : turn.result = .ok scan)
      (going : scan.message ≠ .endOfInput) (noted : scan.Notes g nested text notes)
      (logs : turn.events = notes ++ [scan.noted length]) (positive : 0 < length)
      (within : scan.token.position.index+length ≤ text.length)
      (last : notes.any Event.isUnterminated = true →
        scan.token.position.index+length = text.length)
      (rest : Logged g nested text (scan.token.position.index+length) turns) :
      Logged g nested text scan.token.position.index (turn::turns)

/- What the log of calls says, told without the way that leads there. -/
structure Ledger {σ : Type} (g : Grammar) (nested : Bool) (text : List Char)
    (turns : List (Turn σ)) : Prop where
  failed : ∀ turn ∈ turns, ∀ error, turn.result = .error error → turn.events = []
  token : ∀ turn ∈ turns, ∀ scan, turn.result = .ok scan → scan.message ≠ .endOfInput →
    ∃ notes length, scan.Notes g nested text notes ∧ turn.events = notes ++ [scan.noted length]
  chained : ∀ i index length, (spans turns)[i]? = some (index,length) →
    index = extent ((spans turns).take i)
  whole : extent (spans turns) = text.length
  ended : ∃ before turn after, turns = before ++ turn::after ∧
    (∀ earlier ∈ before, ¬ earlier.IsEnd) ∧ turn.IsEnd ∧
    turn.events = [.sourceExhausted (extent (spans turns))] ∧
    ∀ later ∈ after, later.IsEnd ∧ later.events = []
  exhausted : (log turns).filter Event.isExhausted = [.sourceExhausted (extent (spans turns))]
  cutOff : turns.Pairwise fun earlier later => earlier.events.any Event.isUnterminated = true →
    ∀ scan, later.result = .ok scan → scan.message = .endOfInput
  once : (log turns).countP Event.isUnterminated ≤ 1

namespace Logged
variable {σ : Type} {g : Grammar} {nested : Bool} {text : List Char} {start : Nat}
  {turns : List (Turn σ)}

/- A logged call answers the end, fails and notes nothing, or notes a token. -/
theorem each (logged : Logged g nested text start turns) {turn : Turn σ} (member : turn ∈ turns) :
    turn.IsEnd ∨ ((∃ error, turn.result = .error error) ∧ turn.events = []) ∨
      ∃ scan notes length, turn.result = .ok scan ∧ scan.Notes g nested text notes ∧
        turn.events = notes ++ [scan.noted length] := by
  induction logged with
  | ended isEnd logs silent =>
    rcases List.mem_cons.mp member with rfl | later
    · exact .inl isEnd
    · exact .inl (silent turn later).1
  | failed fails silent rest ih =>
    rcases List.mem_cons.mp member with rfl | later
    · exact .inr (.inl ⟨⟨_,fails⟩,silent⟩)
    · exact ih later
  | token answers going noted logs positive within last rest ih =>
    rcases List.mem_cons.mp member with rfl | later
    · exact .inr (.inr ⟨_,_,_,answers,noted,logs⟩)
    · exact ih later

theorem ledgerFailed (logged : Logged g nested text start turns) {turn : Turn σ}
    (member : turn ∈ turns) {error : Error} (fails : turn.result = .error error) :
    turn.events = [] := by
  rcases logged.each member with isEnd | ⟨_,silent⟩ | ⟨scan,_,_,answers,_⟩
  · exact absurd isEnd (Turn.notEndOf fails)
  · exact silent
  · cases answers.symm.trans fails

theorem ledgerToken (logged : Logged g nested text start turns) {turn : Turn σ}
    (member : turn ∈ turns) {scan : Scan} (answers : turn.result = .ok scan)
    (going : scan.message ≠ .endOfInput) :
    ∃ notes length, scan.Notes g nested text notes ∧
      turn.events = notes ++ [scan.noted length] := by
  rcases logged.each member with isEnd | ⟨⟨_,fails⟩,_⟩ | ⟨_,notes,length,answers',noted,logs⟩
  · exact absurd isEnd (Turn.goingOf answers going)
  · cases answers.symm.trans fails
  · cases answers.symm.trans answers'
    exact ⟨notes,length,noted,logs⟩

theorem spansToken {turn : Turn σ} {scan : Scan} {notes : List Event} {length : Nat}
    (noted : scan.Notes g nested text notes) (logs : turn.events = notes ++ [scan.noted length])
    (turns : List (Turn σ)) :
    spans (turn::turns) = (scan.token.position.index,length)::spans turns := by
  rw [spansCons,logs,List.filterMap_append,noted.unspanned.1]
  rfl

theorem logEnded {turn : Turn σ} {index : Nat} (logs : turn.events = [.sourceExhausted index])
    (silent : ∀ later ∈ turns, later.IsEnd ∧ later.events = []) :
    log (turn::turns) = [.sourceExhausted index] := by
  rw [logCons,logs,logSilent fun later member => (silent later member).2]
  rfl

theorem spansEnded {turn : Turn σ} {index : Nat} (logs : turn.events = [.sourceExhausted index])
    (silent : ∀ later ∈ turns, later.IsEnd ∧ later.events = []) :
    spans (turn::turns) = [] := by
  rw [spans,logEnded logs silent]
  rfl

theorem ledgerChained (logged : Logged g nested text start turns) {i index length : Nat}
    (found : (spans turns)[i]? = some (index,length)) :
    index = start+extent ((spans turns).take i) := by
  induction logged generalizing i with
  | ended isEnd logs silent =>
    rw [spansEnded logs silent] at found
    cases found
  | failed _ silent rest ih =>
    rw [spansCons,silent] at found ⊢
    exact ih found
  | token answers going noted logs positive within last rest ih =>
    rw [spansToken noted logs] at found ⊢
    cases i with
    | zero =>
      cases found
      rfl
    | succ i =>
      have further := ih found
      simp only [List.take_succ_cons,extent] at further ⊢
      omega

theorem ledgerWhole (logged : Logged g nested text start turns) :
    start+extent (spans turns) = text.length := by
  induction logged with
  | ended isEnd logs silent =>
    rw [spansEnded logs silent]
    rfl
  | failed _ quiet rest ih =>
    rw [spansCons,quiet]
    exact ih
  | token answers going noted logs positive within last rest ih =>
    rw [spansToken noted logs,extent,← Nat.add_assoc]
    exact ih

theorem ledgerEnded (logged : Logged g nested text start turns) :
    ∃ before turn after, turns = before ++ turn::after ∧
      (∀ earlier ∈ before, ¬ earlier.IsEnd) ∧ turn.IsEnd ∧
      turn.events = [.sourceExhausted (start+extent (spans turns))] ∧
      ∀ later ∈ after, later.IsEnd ∧ later.events = [] := by
  induction logged with
  | @ended turn turns isEnd logs silent =>
    refine ⟨[],turn,turns,rfl,List.forall_mem_nil _,isEnd,?_,silent⟩
    rw [spansEnded logs silent]
    exact logs
  | @failed _ turn turns error fails quiet rest ih =>
    obtain ⟨before,last,after,rfl,going,isEnd,logs,silent⟩ := ih
    refine ⟨turn::before,last,after,rfl,?_,isEnd,?_,silent⟩
    · exact List.forall_mem_cons.mpr ⟨Turn.notEndOf fails,going⟩
    · rw [logs,spansCons,quiet]
      rfl
  | @token turn turns scan notes length answers goes noted logs' positive within last rest ih =>
    obtain ⟨before,final,after,rfl,going,isEnd,logs,silent⟩ := ih
    refine ⟨turn::before,final,after,rfl,?_,isEnd,?_,silent⟩
    · exact List.forall_mem_cons.mpr ⟨Turn.goingOf answers goes,going⟩
    · rw [logs,spansToken noted logs']
      simp only [extent,Nat.add_assoc]

theorem ledgerExhausted (logged : Logged g nested text start turns) :
    (log turns).filter Event.isExhausted = [.sourceExhausted (start+extent (spans turns))] := by
  induction logged with
  | @ended turn turns isEnd logs silent =>
    rw [spansEnded logs silent,logEnded logs silent]
    rfl
  | failed _ quiet rest ih =>
    rw [logCons,spansCons,quiet]
    exact ih
  | token answers goes noted logs positive within last rest ih =>
    rw [logCons,spansToken noted logs,logs,List.filter_append,List.filter_append,
      noted.unspanned.2,ih]
    simp only [extent,Nat.add_assoc]
    rfl

/- At the end of the text no token follows. -/
theorem wholeEnds (logged : Logged g nested text start turns) (whole : start = text.length)
    {turn : Turn σ} (member : turn ∈ turns) {scan : Scan} (answers : turn.result = .ok scan) :
    scan.message = .endOfInput := by
  have ends {other : Turn σ} (isEnd : other.IsEnd) (answers : other.result = .ok scan) :
      scan.message = .endOfInput := by
    obtain ⟨scan',answers',isEnd⟩ := isEnd
    cases answers.symm.trans answers'
    exact isEnd
  induction logged with
  | ended isEnd logs silent =>
    rcases List.mem_cons.mp member with rfl | later
    · exact ends isEnd answers
    · exact ends (silent turn later).1 answers
  | failed fails quiet rest ih =>
    rcases List.mem_cons.mp member with rfl | later
    · cases answers.symm.trans fails
    · exact ih whole later
  | token _ _ _ _ positive within => omega

theorem wholeTerminated (logged : Logged g nested text start turns) (whole : start = text.length) :
    (log turns).countP Event.isUnterminated = 0 := by
  induction logged with
  | ended isEnd logs silent =>
    rw [logEnded logs silent]
    rfl
  | failed fails quiet rest ih =>
    rw [logCons,quiet]
    exact ih whole
  | token _ _ _ _ positive within => omega

theorem ledgerCutOff (logged : Logged g nested text start turns) :
    turns.Pairwise fun earlier later => earlier.events.any Event.isUnterminated = true →
      ∀ scan, later.result = .ok scan → scan.message = .endOfInput := by
  induction logged with
  | ended isEnd logs silent =>
    refine .cons (fun later _ unterminated => ?_) ?_
    · rw [logs] at unterminated
      cases unterminated
    · refine List.pairwise_of_forall_mem_list fun earlier member later _ unterminated => ?_
      rw [(silent earlier member).2] at unterminated
      cases unterminated
  | failed fails quiet rest ih =>
    refine .cons (fun later _ unterminated => ?_) ih
    rw [quiet] at unterminated
    cases unterminated
  | token answers goes noted logs positive within last rest ih =>
    refine .cons (fun later member unterminated scan answers => ?_) ih
    refine rest.wholeEnds (last ?_) member answers
    rw [logs,List.any_append] at unterminated
    exact (Bool.or_eq_true_iff.mp unterminated).resolve_right (Bool.noConfusion ·)

theorem ledgerOnce (logged : Logged g nested text start turns) :
    (log turns).countP Event.isUnterminated ≤ 1 := by
  induction logged with
  | ended isEnd logs silent =>
    rw [logEnded logs silent]
    exact Nat.zero_le _
  | failed fails quiet rest ih =>
    rw [logCons,quiet]
    exact ih
  | @token turn turns scan notes length answers goes noted logs positive within last rest ih =>
    have alone : turn.events.countP Event.isUnterminated =
        notes.countP Event.isUnterminated := by
      rw [logs,List.countP_append]
      rfl
    rw [logCons,List.countP_append,alone]
    cases noted with
    | cutOff => rw [rest.wholeTerminated (last rfl)]; rfl
    | lexicalError | nothing => exact (Nat.zero_add _).trans_le ih

theorem ledger (logged : Logged g nested text 0 turns) : Ledger g nested text turns where
  failed turn member error := logged.ledgerFailed member
  token turn member scan := logged.ledgerToken member
  chained i index length found := (logged.ledgerChained found).trans (Nat.zero_add _)
  whole := (Nat.zero_add _).symm.trans logged.ledgerWhole
  ended := by simpa only [Nat.zero_add] using logged.ledgerEnded
  exhausted := by simpa only [Nat.zero_add] using logged.ledgerExhausted
  cutOff := logged.ledgerCutOff
  once := logged.ledgerOnce

end Logged

namespace Tokenizer
variable {σ : Type} [CharSource σ] {t : Tokenizer σ}

/- Past the end, every call answers the end again and logs nothing. -/
theorem Finished.callsSilent {scan : Scan} {source : σ} (finished : t.Finished scan source)
    (isEnd : scan.message = .endOfInput) (n : Nat) :
    ∀ turn ∈ t.calls n, turn.IsEnd ∧ turn.events = [] := by
  induction n generalizing t with
  | zero => exact List.forall_mem_nil _
  | succ n ih =>
    have stays := (performFinished finished .next).1
    have again := (performFinished finished .next).2.1 rfl
    have quiet : t.next.events = [] := by
      rw [nextExhausted finished.closed finished.done,atEnd,if_pos finished.done]
    exact List.forall_mem_cons.mpr ⟨⟨⟨scan,Option.some.inj again,isEnd⟩,quiet⟩,ih stays⟩

/- The calls of a run, and those after it, go through the text. -/
theorem Awaits.logged {g : Grammar} {settings : Settings} {text : List Char} {offset : Nat}
    {turns : List (Turn σ)} (h : t.Awaits g settings text offset) (run : Run t turns) (n : Nat) :
    Logged g settings.nestedBlockComments text offset (t.calls (turns.length+n)) := by
  induction run generalizing offset with
  | @last t isEnd =>
    obtain ⟨scan,answers,isEnd⟩ := isEnd
    have answered := h.answered answers
    have here' : t.calls (1+n) = t.next::t.next.tokenizer.calls n := by rw [Nat.add_comm]; rfl
    rw [List.length_singleton,here']
    cases here : lexeme g settings (text.drop offset) with
    | none =>
      rw [here] at answered
      have done := Nat.le_antisymm h.within (List.drop_eq_nil_iff.mp (lexemeNone.mp here))
      have later := (nextEnd answers isEnd).callsSilent isEnd n
      rw [done] at answered ⊢
      exact .ended ⟨scan,answers,isEnd⟩ answered.2 later
    | some x =>
      rw [here] at answered
      obtain ⟨place,_,rfl,_⟩ := answered
      exact absurd isEnd (lexemeMessage here)
  | @more t turns going rest ih =>
    rw [List.length_cons,Nat.add_right_comm,calls]
    cases result : t.next.result with
    | error error =>
      obtain ⟨quiet,awaits⟩ := h.interrupted result
      exact .failed result quiet (ih awaits)
    | ok scan =>
      have answered := h.answered result
      cases here : lexeme g settings (text.drop offset) with
      | none =>
        rw [here] at answered
        exact absurd ⟨scan,result,answered.1⟩ going
      | some x =>
        rw [here] at answered
        obtain ⟨place,rfl,rfl,logs,awaits⟩ := answered
        obtain ⟨notes,noted,listed,last⟩ := Lexeme.notes here
        have taken := Logged.token result (lexemeMessage here) noted (logs.trans listed)
          (lexemeExtent here).1 awaits.within last (ih awaits)
        exact taken

/- However often the source fails before its end, the log of a run, and of the calls past its
end, accounts for the text. -/
theorem runLogged {source : σ} {d : Delivery} (delivers : Delivers source d) (g : Grammar)
    (settings : Settings) :
    ∃ turns, Run ((ofSource g source).configure settings) turns ∧
      ((ofSource g source).configure settings).calls turns.length = turns ∧
      ∀ n, Ledger g settings.nestedBlockComments d.characters
        (((ofSource g source).configure settings).calls (turns.length+n)) := by
  obtain ⟨turns,run,_⟩ := ofSourceRun g settings delivers
  exact ⟨turns,run,run.called,
    fun n => ((ofSourceAwaits delivers g settings).logged run n).ledger⟩

/- A source that fails twice within a comment the end cuts off. -/
theorem runLoggedSample : ∃ (g : Grammar) (e : ReadError), Draft.sample.compile = .ok g ∧
    ∃ turns, Run ((ofSource g (Script.mk [.ok (some '/'),.ok (some '*'),.error e,.ok (some 'a'),
        .error e,.ok none])).configure ⟨.contentOnly,true⟩) turns ∧
      ((ofSource g (Script.mk [.ok (some '/'),.ok (some '*'),.error e,.ok (some 'a'),.error e,
        .ok none])).configure ⟨.contentOnly,true⟩).calls turns.length = turns ∧
      ∀ n, Ledger g true ['/','*','a'] (((ofSource g (Script.mk [.ok (some '/'),.ok (some '*'),
        .error e,.ok (some 'a'),.error e,.ok none])).configure ⟨.contentOnly,true⟩).calls
          (turns.length+n)) := by
  obtain ⟨g,compiles⟩ := Draft.sampleCompiles
  let e : ReadError := ⟨.timedOut,""⟩
  let answers : Delivery := [.ok '/',.ok '*',.error e,.ok 'a',.error e]
  exact ⟨g,e,compiles,runLogged (Script.delivers answers []) g ⟨.contentOnly,true⟩⟩

end Tokenizer
end Munch
