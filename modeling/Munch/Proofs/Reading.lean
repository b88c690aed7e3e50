import Munch.Proofs.Retry

/-! A tokenizer in a text. Over a source that does not fail it stands, between two
calls, at an offset of the text: what it has still to read is the text from there, and
its place is the one that the characters before lead to. Each call takes one lexeme and
stands behind it. Main statement: the pieces that the calls of a run take make up the
text, in order and without a gap. -/
namespace Munch

namespace Tokenizer

def reading (g : Grammar) (settings : Settings) (text : String) : Tokenizer TextSource :=
  (ofSource g (TextSource.ofString text)).configure settings

variable {σ : Type} [CharSource σ]

structure Stands (t : Tokenizer σ) (g : Grammar) (settings : Settings) (text : List Char)
    (offset : Nat) : Prop where
  grammar : t.grammar = g
  configured : t.settings = settings
  closed : t.openComment = none
  live : t.exhausted = false
  within : offset ≤ text.length
  left : ∃ d, t.Yields d ∧ d.failures = [] ∧
    t.head.input.pending ++ d.characters = text.drop offset
  cursor : t.head.cursor = Cursor.start.advanceAll (text.take offset)

theorem readingStands (g : Grammar) (settings : Settings) (text : String) :
    (reading g settings text).Stands g settings text.toList 0 where
  grammar := rfl
  configured := rfl
  closed := rfl
  live := rfl
  within := Nat.zero_le _
  left := ⟨_,ofSourceYields g settings (TextSource.delivers text.toList),
    Delivery.failuresMapOk _,Delivery.charactersMapOk _⟩
  cursor := rfl

/- A new tokenizer, with all that its source delivers read ahead. -/
theorem settledStands (g : Grammar) (settings : Settings) (source : σ) (d : Delivery) :
    (((ofSource g source).configure settings).settle d).Stands g settings d.characters 0 where
  grammar := rfl
  configured := rfl
  closed := rfl
  live := rfl
  within := Nat.zero_le _
  left := ⟨[],.inl ⟨rfl,rfl⟩,rfl,List.append_nil _⟩
  cursor := rfl

namespace Stands
variable {t : Tokenizer σ} {g : Grammar} {settings : Settings} {text : List Char} {offset : Nat}

theorem index (h : t.Stands g settings text offset) : t.position.index = offset := by
  rw [position,Head.position,h.cursor,Cursor.advanceAllIndex,List.length_take,
    Nat.min_eq_left h.within]
  exact Nat.zero_add offset

/- A call meets no failure, and does what it does with everything read ahead. -/
theorem called (h : t.Stands g settings text offset) :
    ∃ d d' scan, d'.failures = [] ∧ t.next.tokenizer.Yields d' ∧ t.next.result = .ok scan ∧
      t.head.input.pending ++ d.characters = text.drop offset ∧
      (match lexeme g settings (text.drop offset) with
        | none => (t.settle d).atEnd
        | some x => x.turn (t.settle d)) = ⟨.ok scan,t.next.events,t.next.tokenizer.settle d'⟩ := by
  obtain ⟨d,yields,quiet,left⟩ := h.left
  obtain ⟨d',resumes⟩ := nextResumes yields
  have settled := nextLexeme (t := t.settle d) rfl left h.closed h.live
  rw [show (t.settle d).grammar = g from h.grammar,
    show (t.settle d).settings = settings from h.configured] at settled
  cases result : t.next.result with
  | error error =>
    obtain ⟨_,⟨e,_,failed⟩,_⟩ := resumes.interrupted error result
    rw [quiet] at failed
    cases failed
  | ok scan =>
    obtain ⟨still,same⟩ := resumes.answered scan result
    exact ⟨d,d',scan,still.symm.trans quiet,resumes.yields,rfl,left,settled.symm.trans same⟩

theorem atEnd (h : t.Stands g settings text offset) (done : offset = text.length) :
    t.next.result = .ok ⟨.endOfInput,⟨g.endSymbol,"",t.position⟩⟩ ∧
      t.next.tokenizer.position = t.position := by
  obtain ⟨d,d',scan,_,_,result,_,same⟩ := h.called
  rw [lexemeNone.mpr (List.drop_of_length_le (Nat.le_of_eq done.symm))] at same
  obtain ⟨answer,_,after⟩ := Turn.mk.inj same
  cases answer
  have place := congrArg Tokenizer.position after
  rw [← h.grammar]
  exact ⟨result,place.symm⟩

theorem exhausts (h : t.Stands g settings text offset) (done : offset = text.length) :
    t.next.events = [.sourceExhausted offset] := by
  obtain ⟨d,d',scan,_,_,_,_,same⟩ := h.called
  rw [lexemeNone.mpr (List.drop_of_length_le (Nat.le_of_eq done.symm))] at same
  have live : (t.settle d).exhausted = false := h.live
  have place : (t.settle d).position.index = offset := h.index
  have log := congrArg Turn.events same
  simpa only [Tokenizer.atEnd,live,place,Bool.false_eq_true,if_false] using log.symm

theorem takes (h : t.Stands g settings text offset) {x : Lexeme}
    (here : lexeme g settings (text.drop offset) = some x) :
    t.next.result = .ok (x.scan t.position) ∧ t.next.events = x.events t.position ∧
      t.next.tokenizer.Stands g settings text (offset+x.length) := by
  obtain ⟨d,d',scan,quiet,yields,result,left,same⟩ := h.called
  rw [here] at same
  obtain ⟨answer,events,after⟩ := Turn.mk.inj same
  cases answer
  refine ⟨result,events.symm,?_⟩
  have within := (lexemeExtent here).2
  have head := congrArg Tokenizer.head after
  have ahead : (t.settle d).head.ahead x.length = (text.drop offset).take x.length := by
    rw [← left]; rfl
  refine ⟨?_,?_,?_,?_,?_,⟨d',yields,quiet,?_⟩,?_⟩
  · exact (congrArg Tokenizer.grammar after).symm.trans h.grammar
  · exact (congrArg Tokenizer.settings after).symm.trans h.configured
  · exact (congrArg Tokenizer.openComment after).symm.trans h.closed
  · exact (congrArg Tokenizer.exhausted after).symm.trans h.live
  · have := h.within
    rw [List.length_drop] at within
    omega
  · have pending := congrArg (fun h => h.input.pending) head
    apply Eq.trans pending.symm
    change ((t.head.input.pending ++ d.characters).drop x.length) = _
    rw [left,List.drop_drop]
  · have cursor := congrArg Head.cursor head
    apply Eq.trans cursor.symm
    change t.head.cursor.advanceAll ((t.settle d).head.ahead x.length) = _
    rw [ahead,h.cursor,← Cursor.advanceAllAppend,List.take_add]

theorem further (h : t.Stands g settings text offset) (going : ¬ t.next.IsEnd) :
    ∃ x, lexeme g settings (text.drop offset) = some x := by
  cases here : lexeme g settings (text.drop offset) with
  | some x => exact ⟨x,rfl⟩
  | none =>
    have nothing := List.drop_eq_nil_iff.mp (lexemeNone.mp here)
    exact absurd ⟨_,(h.atEnd (Nat.le_antisymm h.within nothing)).1,rfl⟩ going

theorem keeps (stands : ∃ offset, t.Stands g settings text offset) (going : ¬ t.next.IsEnd) :
    ∃ offset, t.next.tokenizer.Stands g settings text offset := by
  obtain ⟨offset,h⟩ := stands
  obtain ⟨x,here⟩ := h.further going
  exact ⟨_,(h.takes here).2.2⟩

theorem ending (h : t.Stands g settings text offset) (isEnd : t.next.IsEnd) :
    offset = text.length := by
  cases here : lexeme g settings (text.drop offset) with
  | none => exact Nat.le_antisymm h.within (List.drop_eq_nil_iff.mp (lexemeNone.mp here))
  | some x =>
    obtain ⟨scan,answered,isEnd⟩ := isEnd
    rw [(h.takes here).1] at answered
    cases answered
    exact absurd isEnd (lexemeMessage here)

end Stands

theorem readingRun (g : Grammar) (settings : Settings) (text : String) :
    ∃ turns, Run (reading g settings text) turns := by
  obtain ⟨turns,run,_⟩ := ofSourceRun g settings (TextSource.delivers text.toList)
  exact ⟨turns,run⟩

theorem readingTurn {g : Grammar} {settings : Settings} {text : String}
    {turns : List (Turn TextSource)} (run : Run (reading g settings text) turns) {i : Nat}
    {turn : Turn TextSource} (found : turns[i]? = some turn) :
    ∃ u offset, u.Stands g settings text.toList offset ∧ turn = u.next ∧ Run u (turns.drop i) := by
  obtain ⟨u,⟨offset,stands⟩,called,rest⟩ :=
    run.invariant ⟨0,readingStands g settings text⟩ (fun _ => Stands.keeps) found
  exact ⟨u,offset,stands,called,rest⟩

end Tokenizer

/- Turns that take spans of a text one after the other, from a place in it, and then
answer the end. -/
structure Partition {σ : Type} (settings : Settings) (text : List Char) (start : Nat)
    (turns : List (Turn σ)) (spans : List (List Char)) : Prop where
  whole : spans.flatten = text
  filled : ∀ span ∈ spans, span ≠ []
  counted : turns.length = spans.length+1
  answers : ∀ i turn, turns[i]? = some turn → ∃ scan, turn.result = .ok scan ∧
    scan.token.position.index = start+(spans.take i).flatten.length ∧
    turn.tokenizer.position.index = start+(spans.take (i+1)).flatten.length ∧
    (scan.message = .endOfInput ↔ i = spans.length)
  ordered : turns.Pairwise fun a b => ∀ one two, a.result = .ok one → b.result = .ok two →
    one.token.position < two.token.position
  shown : settings.commentText = .withDelimiters →
    (turns.filterMap Turn.scan?).map (·.token.text.toList) = spans ++ [[]]

namespace Partition
variable {σ : Type} {settings : Settings} {text span : List Char} {start : Nat}
  {turn : Turn σ} {turns : List (Turn σ)} {spans : List (List Char)} {scan : Scan}

theorem last (answers : turn.result = .ok scan) (isEnd : scan.message = .endOfInput)
    (before : scan.token.position.index = start) (after : turn.tokenizer.position.index = start)
    (empty : scan.token.text = "") : Partition settings [] start [turn] [] where
  whole := rfl
  filled := by simp
  counted := rfl
  answers i turn' found := by
    cases i with
    | succ i => cases found
    | zero =>
      cases found
      exact ⟨scan,answers,before,after,iff_of_true isEnd rfl⟩
  ordered := List.pairwise_singleton _ _
  shown _ := by
    rw [List.filterMap_cons,Turn.scanOk answers,List.map_cons,empty]
    rfl

theorem more (rest : Partition settings text (start+span.length) turns spans)
    (answers : turn.result = .ok scan) (going : scan.message ≠ .endOfInput)
    (before : scan.token.position.index = start)
    (after : turn.tokenizer.position.index = start+span.length) (filled : span ≠ [])
    (shown : settings.commentText = .withDelimiters → scan.token.text.toList = span) :
    Partition settings (span ++ text) start (turn::turns) (span::spans) where
  whole := by rw [List.flatten_cons,rest.whole]
  filled := List.forall_mem_cons.mpr ⟨filled,rest.filled⟩
  counted := by rw [List.length_cons,List.length_cons,rest.counted]
  answers i turn' found := by
    cases i with
    | zero =>
      cases found
      refine ⟨scan,answers,before,?_,iff_of_false going (by simp)⟩
      rw [after,List.take_succ_cons,List.take_zero,List.flatten_singleton]
    | succ i =>
      obtain ⟨scan',answers',before',after',isEnd⟩ := rest.answers i turn' found
      refine ⟨scan',answers',?_,?_,?_⟩
      · rw [before',List.take_succ_cons,List.flatten_cons,List.length_append,Nat.add_assoc]
      · rw [after',List.take_succ_cons,List.flatten_cons,List.length_append,Nat.add_assoc]
      · rw [isEnd,List.length_cons,Nat.add_right_cancel_iff]
  ordered := by
    refine List.pairwise_cons.mpr ⟨?_,rest.ordered⟩
    intro later member one two first second
    obtain ⟨i,found⟩ := List.getElem?_of_mem member
    obtain ⟨scan',answers',before',_⟩ := rest.answers i later found
    cases answers.symm.trans first
    cases answers'.symm.trans second
    have positive := List.length_pos_iff.mpr filled
    exact Position.compareOfIndex (by omega)
  shown whole := by
    rw [List.filterMap_cons,Turn.scanOk answers,List.map_cons,shown whole,rest.shown whole]
    rfl

theorem ends (p : Partition settings text start turns spans) (member : turn ∈ turns)
    (answers : turn.result = .ok scan) (isEnd : scan.message = .endOfInput) :
    scan.token.position.index = start+text.length := by
  obtain ⟨i,found⟩ := List.getElem?_of_mem member
  obtain ⟨scan',answers',before,_,last⟩ := p.answers i turn found
  cases answers.symm.trans answers'
  rw [before,last.mp isEnd,List.take_length,p.whole]

theorem joined (p : Partition settings text start turns spans)
    (whole : settings.commentText = .withDelimiters) :
    (turns.filterMap Turn.scan?).flatMap (·.token.text.toList) = text := by
  rw [List.flatMap_def,p.shown whole,List.flatten_append,p.whole]
  exact List.append_nil text

end Partition

namespace Tokenizer
variable {σ : Type} [CharSource σ]

theorem Stands.partition {t : Tokenizer σ} {g : Grammar} {settings : Settings} {text : List Char}
    {offset : Nat} {turns : List (Turn σ)} (run : Run t turns)
    (h : t.Stands g settings text offset) :
    ∃ spans, Partition settings (text.drop offset) offset turns spans := by
  induction run generalizing offset with
  | @last t isEnd =>
    have done := h.ending isEnd
    obtain ⟨result,same⟩ := h.atEnd done
    rw [List.drop_of_length_le (Nat.le_of_eq done.symm)]
    exact ⟨[],.last result rfl h.index (by rw [same]; exact h.index) rfl⟩
  | @more t turns going rest ih =>
    obtain ⟨x,here⟩ := h.further going
    obtain ⟨result,_,further⟩ := h.takes here
    obtain ⟨spans,partition⟩ := ih further
    obtain ⟨positive,within⟩ := lexemeExtent here
    generalize taken : (text.drop offset).take x.length = span
    have size : span.length = x.length := by
      rw [← taken]
      exact List.length_take_of_le within
    have split : text.drop offset = span ++ text.drop (offset+span.length) := by
      rw [size,← List.drop_drop,← taken,List.take_append_drop]
    rw [← size] at partition further positive
    refine ⟨span::spans,?_⟩
    rw [split]
    refine partition.more result (lexemeMessage here) h.index further.index
      (List.length_pos_iff.mp positive) ?_
    intro whole
    rw [Lexeme.scan,String.toList_ofList,lexemeShown here whole,taken]

theorem readingPartitions (g : Grammar) (settings : Settings) (text : String) :
    ∃ turns spans, Run (reading g settings text) turns ∧
      Partition settings text.toList 0 turns spans ∧
      (∀ turn ∈ turns, ∀ scan, turn.result = .ok scan → scan.message = .endOfInput →
        scan.token.position.index = text.length) ∧
      (settings.commentText = .withDelimiters →
        String.join ((turns.filterMap Turn.scan?).map (·.token.text)) = text) := by
  obtain ⟨turns,run⟩ := readingRun g settings text
  obtain ⟨spans,partition⟩ := (readingStands g settings text).partition run
  rw [List.drop_zero] at partition
  refine ⟨turns,spans,run,partition,?_,?_⟩
  · intro turn member scan answers isEnd
    rw [partition.ends member answers isEnd,Nat.zero_add,String.length_toList]
  · intro whole
    rw [← String.toList_inj,String.toList_join,List.flatMap_map,partition.joined whole]

end Tokenizer
end Munch
