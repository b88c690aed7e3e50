import Munch.Proofs.Moves
import Munch.Proofs.Simulation
import Munch.Proofs.Wiring

/-! The end of the input. A source is recorded with all that it has answered, and a
tokenizer over the record does what it does over the source. Main statement: a source
that has reported the end is not asked again; once a tokenizer has answered the end, it
answers the end for good, at the same place; and an iteration that has met a failure or
the end yields nothing more. -/
namespace Munch
variable {σ : Type} [CharSource σ]

/- A source and what it has answered so far, the last answer last. -/
structure Recorded (σ : Type) where
  source : σ
  answers : List Answer

namespace Recorded

def read (r : Recorded σ) : Answer × Recorded σ :=
  let (answer,source) := CharSource.read r.source
  (answer,⟨source,r.answers ++ [answer]⟩)

instance : CharSource (Recorded σ) where
  read := read
  bound r := CharSource.bound r.source
  boundLe r := CharSource.boundLe r.source
  boundLt r ch r' h := by
    obtain ⟨answer,same⟩ := Prod.mk.inj h
    exact CharSource.boundLt _ ch _ (Prod.ext answer (congrArg source same))

/- How a source and its record are after it has been read. -/
theorem readAfter {r r' : Recorded σ} {answer : Answer} (read : CharSource.read r = (answer,r')) :
    CharSource.read r.source = (answer,r'.source) ∧ r'.answers = r.answers ++ [answer] := by
  cases read
  exact ⟨rfl,rfl⟩

/- The end has not been reported yet. -/
def Live (r : Recorded σ) (s : σ) : Prop := r.source = s ∧ .ok none ∉ r.answers

/- The last answer was the first report of the end. -/
def Over (r : Recorded σ) (s : σ) : Prop :=
  r.source = s ∧ ∃ before, r.answers = before ++ [.ok none] ∧ .ok none ∉ before

theorem simulates : Simulates (Live : Recorded σ → σ → Prop) Over := by
  intro r s related
  obtain ⟨source,answers⟩ := r
  obtain ⟨same,fresh⟩ := related
  cases same
  have recorded : CharSource.read (Recorded.mk source answers) = read ⟨source,answers⟩ := rfl
  rw [recorded,read]
  dsimp only
  cases CharSource.read source with
  | mk answer source' =>
    cases answer with
    | error e => exact .failure ⟨rfl,by simp [fresh]⟩
    | ok shown =>
      cases shown with
      | some ch => exact .character ⟨rfl,by simp [fresh]⟩
      | none => exact .finished ⟨rfl,answers,rfl,fresh⟩

end Recorded

/- Sources are alike that deliver the same, whatever they would do after the end. -/
theorem deliversSimulates {τ : Type} [CharSource τ] :
    Simulates (fun (s : σ) (t : τ) => ∃ d, Delivers s d ∧ Delivers t d) (fun _ _ => True) := by
  intro s t both
  obtain ⟨d,one,other⟩ := both
  cases one with
  | finished read =>
    cases other with
    | finished read' => rw [read,read']; exact .finished trivial
  | character read tail =>
    cases other with
    | character read' tail' => rw [read,read']; exact .character ⟨_,tail,tail'⟩
  | failure read tail =>
    cases other with
    | failure read' tail' => rw [read,read']; exact .failure ⟨_,tail,tail'⟩

namespace Head

theorem movesEnded {h h' : Head σ} (ended : h.input.ended = true) (moves : h.Moves h') :
    h'.input.ended = true ∧ h'.input.source = h.input.source := by
  induction moves with
  | refl => exact ⟨ended,rfl⟩
  | tail _ move ih =>
    cases move with
    | character => cases ih.1
    | finished => cases ih.1
    | failure => cases ih.1
    | consume => exact ih

end Head

def Step.AnswersEnd (step : Step σ) (scan : Scan) : Prop :=
  step.result = some (.ok scan) ∧ scan.message = .endOfInput

/- An iteration has met a failure or has nothing more to yield. -/
def Step.Stops (step : Step σ) : Prop :=
  step.operation = .iterate ∧ (step.result = none ∨ ∃ error, step.result = some (.error error))

def Step.yielded (step : Step σ) : Option (Except Error Scan) :=
  if step.operation = .iterate then step.result else none

namespace Tokenizer

def endScan (t : Tokenizer σ) : Scan := ⟨.endOfInput,⟨t.grammar.endSymbol,"",t.position⟩⟩

/- How a tokenizer is left by an answer of the end, and stays. -/
structure Finished (scan : Scan) (source : σ) (t : Tokenizer σ) : Prop where
  done : t.exhausted = true
  closed : t.openComment = none
  answer : t.endScan = scan
  source : t.close = source

omit [CharSource σ] in
theorem finishingGoing {α : Type} {t : Tokenizer σ} {message : Message}
    {events : α → OpenComment → List Event} {outcome : Except ReadError α × Head σ × OpenComment}
    (going : message ≠ .endOfInput) : ¬ (t.finishing message events outcome).IsEnd := by
  obtain ⟨result,head,c⟩ := outcome
  cases result with
  | error e => exact Turn.notEndOf rfl
  | ok a => exact Turn.goingOf rfl going

theorem finishCommentGoing (t : Tokenizer σ) (c : OpenComment) : ¬ (t.finishComment c).IsEnd := by
  by_cases isLine : c.symbol.kind = .commentLineStart
  · rw [finishCommentLine isLine]
    exact finishingGoing (by decide)
  · rw [finishCommentBlock isLine]
    exact finishingGoing (by decide)

theorem acceptEnd {t : Tokenizer σ} {found : Longest} (isEnd : (t.accept found).IsEnd) :
    found = .atEnd := by
  cases found with
  | atEnd => rfl
  | nothing =>
    obtain ⟨scan,answered,isEnd⟩ := isEnd
    cases answered
    cases isEnd
  | found m =>
    simp only [accept] at isEnd
    split at isEnd
    · exact absurd isEnd (finishCommentGoing _ _)
    · obtain ⟨scan,answered,isEnd⟩ := isEnd
      cases answered
      cases isEnd

omit [CharSource σ] in
theorem atEndFinished {t : Tokenizer σ} (closed : t.openComment = none) :
    t.atEnd.tokenizer.Finished t.endScan t.close := ⟨rfl,closed,rfl,rfl⟩

theorem nextEnd {t : Tokenizer σ} {scan : Scan} (answered : t.next.result = .ok scan)
    (isEnd : scan.message = .endOfInput) :
    t.next.tokenizer.Finished scan t.next.tokenizer.close := by
  have ends : t.next.IsEnd := ⟨scan,answered,isEnd⟩
  cases parked : t.openComment with
  | some c =>
    rw [nextParked parked] at ends
    exact absurd ends (finishCommentGoing t c)
  | none =>
    cases done : t.exhausted with
    | true =>
      rw [nextExhausted parked done] at answered ⊢
      cases answered
      exact atEndFinished parked
    | false =>
      cases longest : t.head.input.longest t.grammar with
      | mk answer input =>
        rw [nextScanning parked done longest] at answered ends ⊢
        cases answer with
        | error e => cases answered
        | ok found =>
          cases acceptEnd ends
          cases answered
          exact atEndFinished (t := {t with head := {t.head with input}}) parked

theorem performFinished {t : Tokenizer σ} {scan : Scan} {source : σ}
    (finished : t.Finished scan source) (op : Operation) :
    (t.perform op).tokenizer.Finished scan source ∧
      (op = .next → (t.perform op).result = some (.ok scan)) ∧
      (op = .iterate → (t.perform op).result = none) := by
  obtain ⟨done,closed,answer,same⟩ := finished
  cases op with
  | configure settings =>
    exact ⟨⟨done,closed,answer,same⟩,fun is => (by cases is),fun is => (by cases is)⟩
  | iterate =>
    have stopped : t.isDone = true := by rw [isDone,done,Bool.or_true]
    simp only [perform,iterate,stopped,if_true]
    exact ⟨⟨done,closed,answer,same⟩,fun is => (by cases is),fun _ => trivial⟩
  | next =>
    simp only [perform,nextExhausted closed done]
    refine ⟨⟨rfl,closed,answer,same⟩,fun _ => ?_,fun is => (by cases is)⟩
    rw [← answer]
    rfl

theorem performEnd {t : Tokenizer σ} {op : Operation} {scan : Scan}
    (answers : (t.perform op).AnswersEnd scan) :
    (t.perform op).tokenizer.Finished scan (t.perform op).tokenizer.close := by
  obtain ⟨answered,isEnd⟩ := answers
  have performs := t.performs op
  generalize t.perform op = step at performs answered ⊢
  cases performs with
  | quiet => cases answered
  | called op failed =>
    obtain ⟨done,closed,answer,same⟩ := nextEnd (Option.some.inj answered) isEnd
    exact ⟨done,closed,answer,same⟩

theorem nextDone {t : Tokenizer σ} (done : t.exhausted = true) :
    t.next.tokenizer.exhausted = true := by
  cases parked : t.openComment with
  | some c => rw [nextParked parked,finishCommentExhausted]; exact done
  | none => rw [nextExhausted parked done]; rfl

theorem performDone {t : Tokenizer σ} (done : t.isDone = true) (op : Operation) :
    (t.perform op).tokenizer.isDone = true := by
  cases op with
  | configure settings => exact done
  | iterate => simp only [perform,iterate,done,if_true]
  | next =>
    simp only [isDone,Bool.or_eq_true] at done ⊢
    exact done.imp (nextCalls t).failed.trans nextDone

theorem performStops {t : Tokenizer σ} {op : Operation} (stops : (t.perform op).Stops) :
    (t.perform op).tokenizer.isDone = true := by
  obtain ⟨isIterate,stops⟩ := stops
  rw [performOperation] at isIterate
  subst isIterate
  simp only [perform,iterate] at stops ⊢
  cases done : t.isDone with
  | true => exact done
  | false =>
    rw [done] at stops
    rcases stops with none | ⟨error,failed⟩
    · cases none
    · have failed : t.next.result = .error error := Option.some.inj failed
      simp [failed,isDone,Except.isOk,Except.toBool]

end Tokenizer

/- The end has been answered, and is all that is answered still. -/
structure Step.StaysEnded (step : Step σ) (scan : Scan) (source : σ) : Prop where
  exhausted : step.tokenizer.exhausted = true
  position : step.tokenizer.position = scan.token.position
  source : step.tokenizer.close = source
  next : step.operation = .next → step.result = some (.ok scan)
  iterate : step.operation = .iterate → step.result = none

/- What holds of the end in the steps of a session over a recorded source. -/
structure EndSticks (g : Grammar) (steps : List (Step (Recorded σ))) : Prop where
  once : ∀ step ∈ steps, .ok none ∉ step.tokenizer.close.answers.dropLast
  unasked : steps.Pairwise fun earlier later =>
    .ok none ∈ earlier.tokenizer.close.answers → later.tokenizer.close = earlier.tokenizer.close
  answer : ∀ step ∈ steps, ∀ scan, step.AnswersEnd scan →
    scan.token = ⟨g.endSymbol,"",step.tokenizer.position⟩ ∧ step.tokenizer.exhausted = true
  sticks : steps.Pairwise fun earlier later => ∀ scan, earlier.AnswersEnd scan →
    later.StaysEnded scan earlier.tokenizer.close
  stops : steps.Pairwise fun earlier later =>
    earlier.Stops → later.operation = .iterate → later.result = none
  failure : (steps.filterMap Step.yielded).countP (fun result => !result.isOk) ≤ 1
  ending : (steps.filterMap Step.yielded).countP
    (fun result => result.toOption.any (·.message = .endOfInput)) ≤ 1

theorem countAtMostOne {α : Type} {p : α → Bool} {l : List α}
    (last : l.Pairwise fun earlier _ => p earlier = false) : l.countP p ≤ 1 := by
  induction last with
  | nil => exact Nat.zero_le _
  | @cons a rest first _ ih =>
    cases rest with
    | nil => exact List.countP_le_length
    | cons b rest =>
      rw [List.countP_cons_of_neg (by rw [first b List.mem_cons_self]; exact Bool.false_ne_true)]
      exact ih

namespace Tokenizer

theorem sessionUnasked (t : Tokenizer σ) (ops : List Operation) :
    (t.session ops).Pairwise fun earlier later =>
      earlier.tokenizer.head.input.ended = true →
        later.tokenizer.close = earlier.tokenizer.close := by
  have kept {source : σ} {u : Tokenizer σ} (op : Operation)
      (known : u.head.input.ended = true ∧ u.close = source) :
      (u.perform op).tokenizer.head.input.ended = true ∧
        (u.perform op).tokenizer.close = source := by
    obtain ⟨ended,same⟩ := Head.movesEnded known.1 (u.performMoves op)
    exact ⟨ended,same.trans known.2⟩
  refine sessionPairwise (fun earlier u => earlier.tokenizer.head.input.ended = true →
    u.head.input.ended = true ∧ u.close = earlier.tokenizer.close) ?_ ?_ ?_ t ops
  · intro t op ended
    exact ⟨ended,rfl⟩
  · intro earlier u op holds ended
    exact kept op (holds ended)
  · intro earlier u op holds ended
    exact (kept op (holds ended)).2

theorem sessionSticks (t : Tokenizer σ) (ops : List Operation) :
    (t.session ops).Pairwise fun earlier later => ∀ scan, earlier.AnswersEnd scan →
      later.StaysEnded scan earlier.tokenizer.close := by
  refine sessionPairwise (fun earlier u => ∀ scan, earlier.AnswersEnd scan →
    u.Finished scan earlier.tokenizer.close) ?_ ?_ ?_ t ops
  · intro t op scan answers
    exact performEnd answers
  · intro earlier u op holds scan answers
    exact (performFinished (holds scan answers) op).1
  · intro earlier u op holds scan answers
    obtain ⟨after,next,iterate⟩ := performFinished (holds scan answers) op
    have same := performOperation u op
    exact ⟨after.done,congrArg (·.token.position) after.answer,after.source,
      fun isNext => next (same.symm.trans isNext),
      fun isIterate => iterate (same.symm.trans isIterate)⟩

theorem sessionStops (t : Tokenizer σ) (ops : List Operation) :
    (t.session ops).Pairwise fun earlier later =>
      earlier.Stops → later.operation = .iterate → later.result = none := by
  refine sessionPairwise (fun earlier u => earlier.Stops → u.isDone = true) ?_ ?_ ?_ t ops
  · intro t op stops
    exact performStops stops
  · intro earlier u op holds stops
    exact performDone (holds stops) op
  · intro earlier u op holds stops isIterate
    rw [performOperation] at isIterate
    subst isIterate
    simp only [perform,iterate,holds stops,if_true]

/- An iteration yields nothing after a failure or the end. -/
theorem sessionYields (t : Tokenizer σ) (ops : List Operation) :
    ((t.session ops).filterMap Step.yielded).Pairwise fun earlier _ =>
      ∃ scan, earlier = .ok scan ∧ scan.message ≠ .endOfInput := by
  refine ((t.sessionSticks ops).and (t.sessionStops ops)).filterMap _ ?_
  intro earlier later both result yields next follows
  obtain ⟨sticks,stops⟩ := both
  unfold Step.yielded at yields follows
  split at yields <;> rename_i isIterate
  · split at follows <;> rename_i isIterate'
    · cases result with
      | error error =>
        rw [stops ⟨isIterate,.inr ⟨error,yields⟩⟩ isIterate'] at follows
        cases follows
      | ok scan =>
        refine ⟨scan,rfl,fun isEnd => ?_⟩
        rw [(sticks scan ⟨yields,isEnd⟩).iterate isIterate'] at follows
        cases follows
    · cases follows
  · cases yields

omit [CharSource σ] in
theorem recordedAlike (g : Grammar) (settings : Settings) (source : σ) :
    ((ofSource g (Recorded.mk source [])).configure settings).Alike Recorded.Live Recorded.Over
      ((ofSource g source).configure settings) :=
  ofSourceAlike g settings ⟨rfl,List.not_mem_nil⟩

omit [CharSource σ] in
theorem recordedAsked {i : Input (Recorded σ)} {j : Input σ}
    (alike : i.Alike Recorded.Live Recorded.Over j) :
    .ok none ∉ i.source.answers.dropLast ∧ (.ok none ∈ i.source.answers → i.ended = true) := by
  cases ended : i.ended with
  | true =>
    obtain ⟨_,before,answers,fresh⟩ := alike.done ended
    rw [answers,List.dropLast_concat]
    exact ⟨fresh,fun _ => rfl⟩
  | false =>
    have fresh := (alike.going ended).2
    refine ⟨fun member => ?_,fun member => absurd member fresh⟩
    exact fresh ((List.dropLast_sublist _).subset member)

/- A tokenizer over a recorded source, and one over the source itself that is like it. -/
structure Recording (g : Grammar) (u : Tokenizer (Recorded σ)) : Prop where
  grammar : u.grammar = g
  alike : ∃ v : Tokenizer σ, u.Alike Recorded.Live Recorded.Over v

theorem performRecording {g : Grammar} {u : Tokenizer (Recorded σ)} (recording : u.Recording g)
    (op : Operation) : (u.perform op).tokenizer.Recording g := by
  obtain ⟨v,alike⟩ := recording.alike
  exact ⟨(u.performGrammar op).trans recording.grammar,_,
    (performAlike Recorded.simulates alike op).tokenizer⟩

theorem sessionRecording {g : Grammar} {settings : Settings} {source : σ} {ops : List Operation}
    {step : Step (Recorded σ)}
    (member : step ∈ ((ofSource g (Recorded.mk source [])).configure settings).session ops) :
    step.tokenizer.Recording g ∧ ∀ scan, step.AnswersEnd scan →
      step.tokenizer.Finished scan step.tokenizer.close := by
  have start : ((ofSource g (Recorded.mk source [])).configure settings).Recording g :=
    ⟨rfl,_,recordedAlike g settings source⟩
  obtain ⟨u,op,recording,rfl⟩ :=
    sessionInvariant start (fun u op recording => performRecording recording op) member
  exact ⟨performRecording recording op,fun scan answers => performEnd answers⟩

theorem recordedEndSticks (g : Grammar) (settings : Settings) (source : σ)
    (ops : List Operation) :
    EndSticks g (((ofSource g (Recorded.mk source [])).configure settings).session ops) := by
  have yields := sessionYields ((ofSource g (Recorded.mk source [])).configure settings) ops
  refine ⟨?once,?unasked,?answer,sessionSticks _ ops,sessionStops _ ops,?failure,?ending⟩
  case once =>
    intro step member
    obtain ⟨v,alike⟩ := (sessionRecording member).1.alike
    exact (recordedAsked alike.head.input).1
  case unasked =>
    refine List.Pairwise.imp_of_mem ?_ (sessionUnasked _ ops)
    intro earlier later member _ unasked asked
    obtain ⟨v,alike⟩ := (sessionRecording member).1.alike
    exact unasked ((recordedAsked alike.head.input).2 asked)
  case answer =>
    intro step member scan answers
    obtain ⟨recording,finished⟩ := sessionRecording member
    have token := congrArg Scan.token (finished scan answers).answer
    rw [← token,endScan,recording.grammar]
    exact ⟨rfl,(finished scan answers).done⟩
  case failure =>
    refine countAtMostOne (yields.imp ?_)
    intro earlier _ isScan
    obtain ⟨scan,rfl,_⟩ := isScan
    rfl
  case ending =>
    refine countAtMostOne (yields.imp ?_)
    intro earlier _ isScan
    obtain ⟨scan,rfl,going⟩ := isScan
    exact decide_eq_false going

theorem endOfInputSticks (g : Grammar) (settings : Settings) (source : σ) (ops : List Operation) :
    EndSticks g (((ofSource g (Recorded.mk source [])).configure settings).session ops) ∧
    List.Forall₂ (fun recorded plain =>
        recorded.Agrees plain ∧ recorded.tokenizer.close.source = plain.tokenizer.close)
      (((ofSource g (Recorded.mk source [])).configure settings).session ops)
      (((ofSource g source).configure settings).session ops) ∧
    ∀ {τ : Type} [CharSource τ] (other : τ) (d : Delivery), Delivers source d → Delivers other d →
      List.Forall₂ Step.Agrees (((ofSource g source).configure settings).session ops)
        (((ofSource g other).configure settings).session ops) := by
  refine ⟨recordedEndSticks g settings source ops,?_,?_⟩
  · refine (sessionAlike Recorded.simulates (recordedAlike g settings source) ops).imp ?_
    intro recorded plain alike
    refine ⟨alike.agrees,?_⟩
    have input := alike.tokenizer.head.input
    cases ended : recorded.tokenizer.head.input.ended with
    | true => exact (input.done ended).1
    | false => exact (input.going ended).1
  · intro τ _ other d one two
    refine (sessionAlike deliversSimulates (ofSourceAlike g settings ⟨d,one,two⟩) ops).imp ?_
    intro a b alike
    exact alike.agrees

/- A source that would go on after the end. -/
theorem endOfInputSticksSample : ∃ (g : Grammar) (source : Script), Draft.sample.compile = .ok g ∧
    source.answers = [.ok (some 'a'),.ok none,.ok (some 'b')] ∧
      List.Forall₂ Step.Agrees (((ofSource g source).configure {}).session [.next,.iterate,.next])
        (((ofSource g (TextSource.ofString "a")).configure {}).session [.next,.iterate,.next]) := by
  obtain ⟨g,compiles⟩ := Draft.sampleCompiles
  have one := Script.delivers [.ok 'a'] [.ok (some 'b')]
  have other := TextSource.delivers ['a']
  exact ⟨g,_,compiles,rfl,(endOfInputSticks g {} _ _).2.2 _ _ one other⟩

end Tokenizer
end Munch
