import Munch.Proofs.Failure
import Munch.Proofs.Faultless
import Munch.Proofs.Interchange
import Munch.Source.Metered

/-! Scanning comes to an end. What a tokenizer has still to do is measured by the characters
from where its next token begins, whether they have been consumed for an open comment, read
ahead or not yet delivered, and by the failures that its source has still to report. Every
call that does not answer the end lowers the measure: it answers with a token that takes a
character, or it reports a failure. Main statement: over a source that delivers n characters
and k failures before it reports the end, whatever the settings are between the calls, one of
the first n+k+1 calls answers the end, k of the calls before it fail, and the source is not
asked more often than that; a text is scanned with at most one answer more than it has
characters. -/
namespace Munch

namespace Delivery

theorem lengthSum (d : Delivery) : d.length = d.characters.length+d.failures.length := by
  induction d with
  | nil => rfl
  | cons answer rest ih =>
    cases answer with
    | error e => simp only [List.length_cons,ih,charactersError,failuresError]; omega
    | ok ch => simp only [List.length_cons,ih,charactersOk,failuresOk]; omega

/- The answers by which a source delivers, and the report of the end. -/
def answers (d : Delivery) : List Answer := d.map (·.map some) ++ [.ok none]

end Delivery

/- What is delivered before the end is reported, where nothing else is known of a source. -/
inductive Answering {ρ : Type} (ask : ρ → Answer × ρ) : ρ → Delivery → Prop where
  | finished {s s'} (asked : ask s = (.ok none,s')) : Answering ask s []
  | character {s s' ch rest} (asked : ask s = (.ok (some ch),s'))
      (tail : Answering ask s' rest) : Answering ask s (.ok ch::rest)
  | failure {s s' e rest} (asked : ask s = (.error e,s'))
      (tail : Answering ask s' rest) : Answering ask s (.error e::rest)

/- A budget that goes beyond the report of the end makes no difference before it. -/
theorem Metered.delivers {ρ : Type} {ask : ρ → Answer × ρ} {s : ρ} {d : Delivery}
    (answering : Answering ask s d) {budget : Nat} (enough : d.length < budget) :
    Delivers (Metered.mk s budget : Metered ask) d := by
  induction answering generalizing budget with
  | finished asked =>
    obtain ⟨budget,rfl⟩ := Nat.exists_eq_succ_of_ne_zero (Nat.ne_of_gt enough)
    exact .finished (readOf asked budget)
  | character asked tail ih =>
    obtain ⟨budget,rfl⟩ := Nat.exists_eq_succ_of_ne_zero (Nat.ne_zero_of_lt enough)
    exact .character (readOf asked budget) (ih (Nat.lt_of_succ_lt_succ enough))
  | failure asked tail ih =>
    obtain ⟨budget,rfl⟩ := Nat.exists_eq_succ_of_ne_zero (Nat.ne_zero_of_lt enough)
    exact .failure (readOf asked budget) (ih (Nat.lt_of_succ_lt_succ enough))

section
variable {σ : Type} [CharSource σ]

namespace Head

/- The number of characters that there are, those not yet delivered among them. -/
def total (h : Head σ) (d : Delivery) : Nat :=
  h.position.index+h.input.pending.length+d.characters.length

theorem yieldsUnique {h : Head σ} {d d' : Delivery} (one : h.Yields d) (two : h.Yields d') :
    d = d' := by
  rcases one with ⟨ended,rfl⟩ | ⟨live,one⟩ <;> rcases two with ⟨ended',rfl⟩ | ⟨live',two⟩
  · rfl
  · cases ended.symm.trans live'
  · cases live.symm.trans ended'
  · exact one.unique two

theorem moveTotal {h h' : Head σ} {d : Delivery} (yields : h.Yields d) (move : h.Move h') :
    ∃ d', h'.Yields d' ∧ h'.total d' = h.total d := by
  cases move with
  | character read =>
    rcases yields with ⟨ended,_⟩ | ⟨_,delivers⟩
    · cases ended
    · obtain ⟨rest,rfl,tail⟩ := delivers.afterCharacter read
      refine ⟨rest,.inr ⟨rfl,tail⟩,?_⟩
      simp [total,position]
      omega
  | finished read =>
    rcases yields with ⟨ended,_⟩ | ⟨_,delivers⟩
    · cases ended
    · exact ⟨d,.inl ⟨rfl,delivers.atEnd read⟩,rfl⟩
  | failure read =>
    rcases yields with ⟨ended,_⟩ | ⟨_,delivers⟩
    · cases ended
    · obtain ⟨rest,rfl,tail⟩ := delivers.afterFailure read
      exact ⟨rest,.inr ⟨rfl,tail⟩,rfl⟩
  | consume h count =>
    refine ⟨d,yields,?_⟩
    simp only [total,position,consume,Cursor.advanceAllIndex,ahead,Input.drop,List.length_take,
      List.length_drop]
    omega

theorem movesTotal {h h' : Head σ} {d d' : Delivery} (yields : h.Yields d)
    (yields' : h'.Yields d') (moves : h.Moves h') : h'.total d' = h.total d := by
  -- What a head still yields is determined by it, so that any account of it will do.
  suffices kept : ∃ d', h'.Yields d' ∧ h'.total d' = h.total d by
    obtain ⟨d'',yields'',same⟩ := kept
    rw [yieldsUnique yields' yields'',same]
  clear yields'
  induction moves with
  | refl => exact ⟨d,yields,rfl⟩
  | tail _ last ih =>
    obtain ⟨d₁,yields₁,same⟩ := ih
    obtain ⟨d₂,yields₂,same'⟩ := moveTotal yields₁ last
    exact ⟨d₂,yields₂,same'.trans same⟩

/- What a source has been asked for that delivers so much: some of it, or all and the end. -/
def Heard (d : Delivery) (h : Head (Recorded σ)) : Prop :=
  (h.input.ended = false ∧ ∃ items rest, d = items ++ rest ∧
    h.input.source.answers = items.map (·.map some) ∧ Delivers h.input.source.source rest) ∨
  (h.input.ended = true ∧ h.input.source.answers = d.answers)

theorem Heard.begins {d : Delivery} {h : Head (Recorded σ)} (heard : h.Heard d) :
    h.input.source.answers <+: d.answers := by
  rcases heard with ⟨_,items,rest,rfl,answers,_⟩ | ⟨_,answers⟩
  · rw [answers,Delivery.answers,List.map_append,List.append_assoc]
    exact List.prefix_append _ _
  · exact answers ▸ List.prefix_rfl

theorem Heard.move {d : Delivery} {h h' : Head (Recorded σ)} (heard : h.Heard d)
    (move : h.Move h') : h'.Heard d := by
  cases move with
  | consume => exact heard
  | @character _ _ _ _ ch read =>
    obtain ⟨asked,record⟩ := Recorded.readAfter read
    rcases heard with ⟨_,items,rest,rfl,answers,delivers⟩ | ⟨ended,_⟩
    · obtain ⟨rest,rfl,tail⟩ := delivers.afterCharacter asked
      refine .inl ⟨rfl,items ++ [.ok ch],rest,by simp,record.trans ?_,tail⟩
      rw [answers,List.map_append]
      rfl
    · cases ended
  | @failure _ _ _ _ e read =>
    obtain ⟨asked,record⟩ := Recorded.readAfter read
    rcases heard with ⟨_,items,rest,rfl,answers,delivers⟩ | ⟨ended,_⟩
    · obtain ⟨rest,rfl,tail⟩ := delivers.afterFailure asked
      refine .inl ⟨rfl,items ++ [.error e],rest,by simp,record.trans ?_,tail⟩
      rw [answers,List.map_append]
      rfl
    · cases ended
  | finished read =>
    obtain ⟨asked,record⟩ := Recorded.readAfter read
    rcases heard with ⟨_,items,rest,rfl,answers,delivers⟩ | ⟨ended,_⟩
    · cases delivers.atEnd asked
      refine .inr ⟨rfl,record.trans ?_⟩
      rw [answers,Delivery.answers,List.append_nil]
    · cases ended

theorem Heard.moves {d : Delivery} {h h' : Head (Recorded σ)} (heard : h.Heard d)
    (moves : h.Moves h') : h'.Heard d := by
  induction moves with
  | refl => exact heard
  | tail _ last ih => exact ih.move last

end Head

namespace Tokenizer

/- The end has not been answered, and an open comment has taken some characters. -/
structure Advancing (t : Tokenizer σ) (d : Delivery) : Prop where
  yields : t.Yields d
  live : t.exhausted = false
  behind : ∀ c, t.openComment = some c → c.start.index < t.position.index

def left (t : Tokenizer σ) (d : Delivery) : Nat :=
  t.head.total d-t.began.index+d.failures.length

variable {t : Tokenizer σ} {d : Delivery}

omit [CharSource σ] in
theorem positionTotal (t : Tokenizer σ) (d : Delivery) : t.position.index ≤ t.head.total d := by
  simp only [Head.total,position]
  omega

/- A token takes at least one character. -/
theorem answeredAdvances (advancing : t.Advancing d) {scan : Scan}
    (answered : t.next.result = .ok scan) (going : scan.message ≠ .endOfInput) :
    t.began.index < t.next.tokenizer.position.index := by
  cases parked : t.openComment with
  | some c =>
    -- The call that completes a comment may take nothing itself.
    rw [began,parked]
    exact Nat.lt_of_lt_of_le (advancing.behind c parked) (nextCalls t).moves.forward
  | none =>
    obtain ⟨d',_,_,settled,_⟩ := answeredSettled advancing.yields advancing.live answered
    have called := nextLexeme (t := t.settle d) rfl rfl parked advancing.live
    rw [settled] at called
    cases here : lexeme (t.settle d).grammar (t.settle d).settings
        (t.settle d).head.input.pending with
    | none =>
      rw [here] at called
      have ends : Except.ok scan = (t.settle d).atEnd.result := congrArg Turn.result called
      cases ends
      exact absurd rfl going
    | some x =>
      rw [here] at called
      obtain ⟨positive,within⟩ := lexemeExtent here
      have place : t.next.tokenizer.position.index = t.position.index+x.length :=
        (congrArg (fun turn => turn.tokenizer.position.index) called).trans
          (Head.consumeIndex (h := (t.settle d).head) within)
      rw [began,parked]
      dsimp only
      omega

/- A failed call leaves where it was what it has begun with. -/
theorem failedBegan {error : Error} (failed : t.next.result = .error error) :
    t.next.tokenizer.began = t.began := by
  have calls := nextCalls t
  obtain ⟨e,chars,run,gathers,_,interrupts⟩ := nextFailing failed
  cases parked : t.next.tokenizer.openComment with
  | some c =>
    rw [began,parked]
    exact calls.parked c parked
  | none =>
    generalize t.next.tokenizer = t' at gathers interrupts parked
    cases interrupts with
    | searching closed =>
      simp only [began,closed]
      exact congrArg Cursor.position gathers.cursor
    | continued => cases parked
    | opened => cases parked

theorem failedBehind (advancing : t.Advancing d) {error : Error} {c : OpenComment}
    (failed : t.next.result = .error error) (parked : t.next.tokenizer.openComment = some c) :
    c.start.index < t.next.tokenizer.position.index := by
  have further := (nextCalls t).moves.forward
  obtain ⟨e,chars,run,gathers,_,interrupts⟩ := nextFailing failed
  generalize t.next.tokenizer = t' at gathers interrupts parked further
  cases interrupts with
  | searching closed => cases closed.symm.trans parked
  | continued was continues =>
    cases parked
    rw [continues.start]
    exact Nat.lt_of_lt_of_le (advancing.behind _ was) further
  | opened closed live start scanned =>
    cases parked
    have positive := (scanned.leading []).found.positive
    have within := scanned.within
    rw [start,position,position,Head.position,Head.position,gathers.cursor,Cursor.advanceAllIndex]
    omega

/- A call answers the end, when no failure is left to be reported, or there is less to do. -/
theorem nextAdvances (advancing : t.Advancing d) : (t.next.IsEnd ∧ d.failures = []) ∨
    (¬ t.next.IsEnd ∧ ∃ d', t.next.tokenizer.Advancing d' ∧ t.next.tokenizer.left d' < t.left d ∧
      d.failures.map .readFailure = t.next.cause?.toList ++ d'.failures.map .readFailure) := by
  obtain ⟨yields,live,behind⟩ := advancing
  have calls := nextCalls t
  cases result : t.next.result with
  | ok scan =>
    obtain ⟨d',yields',quiet,_,finished⟩ := answeredSettled yields live result
    by_cases isEnd : t.next.IsEnd
    · exact .inl ⟨isEnd,quiet.trans (finished isEnd)⟩
    · refine .inr ⟨isEnd,d',⟨yields',nextLive live isEnd,?_⟩,?_,?_⟩
      · intro c parked
        cases (nextClosed result).symm.trans parked
      · have further : t.began.index < t.next.tokenizer.position.index :=
          answeredAdvances ⟨yields,live,behind⟩ result fun ends => isEnd ⟨scan,result,ends⟩
        have total := Head.movesTotal yields yields' calls.moves
        have within := positionTotal t.next.tokenizer d'
        have began : t.next.tokenizer.began = t.next.tokenizer.position := by
          rw [Tokenizer.began,nextClosed result]
        rw [left,left,began,quiet]
        omega
      · rw [Turn.causeOk result,quiet]
        rfl
  | error error =>
    -- Nothing is lost of the token that was begun; there is one failure less to report.
    have going : ¬ t.next.IsEnd := Turn.notEndOf result
    obtain ⟨d',resumes⟩ := nextResumes yields
    obtain ⟨_,⟨e,same,failures⟩,_⟩ := resumes.interrupted error result
    refine .inr ⟨going,d',⟨resumes.yields,nextLive live going,?_⟩,?_,?_⟩
    · exact fun c => failedBehind ⟨yields,live,behind⟩ result
    · have total := Head.movesTotal yields resumes.yields calls.moves
      rw [left,left,failedBegan result,total,failures,List.length_cons]
      omega
    · rw [failures,Turn.cause?,result,same]
      rfl

end Tokenizer

/- The cause of the failure that a step reports. -/
def Step.cause? (step : Step σ) : Option Cause :=
  step.result.bind fun
    | .ok _ => none
    | .error e => some e.cause

namespace Tokenizer
variable {t : Tokenizer σ} {d : Delivery}

theorem performAdvances (advancing : t.Advancing d) (op : Operation)
    (going : ∀ scan, ¬ (t.perform op).AnswersEnd scan) :
    ∃ d', (t.perform op).tokenizer.Advancing d' ∧
      (t.perform op).result.toList.length+(t.perform op).tokenizer.left d' ≤ t.left d ∧
      d.failures.map .readFailure =
        (t.perform op).cause?.toList ++ d'.failures.map .readFailure := by
  have advances := nextAdvances advancing
  have performs := t.performs op
  generalize t.perform op = step at performs going ⊢
  cases performs with
  | quiet op settings =>
    exact ⟨d,⟨advancing.yields,advancing.live,advancing.behind⟩,Nat.le_of_eq (Nat.zero_add _),rfl⟩
  | called op failed =>
    rcases advances with ⟨⟨scan,answered,isEnd⟩,_⟩ | ⟨_,d',⟨yields,live,behind⟩,less,failures⟩
    · exact absurd ⟨congrArg some answered,isEnd⟩ (going scan)
    · refine ⟨d',⟨yields,live,behind⟩,Nat.one_add_le_iff.mpr less,failures.trans ?_⟩
      cases result : t.next.result <;> simp [Turn.cause?,Step.cause?,result]

theorem sessionAnswers (t : Tokenizer σ) (op : Operation) (ops : List Operation) :
    ((t.session (op::ops)).filterMap Step.result).length = (t.perform op).result.toList.length+
      (((t.perform op).tokenizer.session ops).filterMap Step.result).length := by
  rw [session,List.filterMap_cons]
  cases (t.perform op).result <;> simp [Nat.add_comm]

/- Every answer but that of the end takes from what is left. -/
theorem sessionAdvances (advancing : t.Advancing d) (ops : List Operation)
    (going : ∀ step ∈ t.session ops, ∀ scan, ¬ step.AnswersEnd scan) :
    ∃ d', (t.after ops).Advancing d' ∧
      ((t.session ops).filterMap Step.result).length+(t.after ops).left d' ≤ t.left d ∧
      d.failures.map .readFailure =
        (t.session ops).filterMap Step.cause? ++ d'.failures.map .readFailure := by
  induction ops generalizing t d with
  | nil => exact ⟨d,advancing,Nat.le_of_eq (Nat.zero_add _),rfl⟩
  | cons op ops ih =>
    obtain ⟨first,others⟩ := List.forall_mem_cons.mp going
    obtain ⟨d₁,advancing₁,less,failures⟩ := performAdvances advancing op first
    obtain ⟨d₂,advancing₂,less',failures'⟩ := ih advancing₁ others
    refine ⟨d₂,advancing₂,?_,?_⟩
    · rw [sessionAnswers,Nat.add_assoc]
      exact Nat.le_trans (Nat.add_le_add_left less' _) less
    · rw [failures,failures',← List.append_assoc,session,List.filterMap_cons]
      cases (t.perform op).cause? <;> rfl

/- The end is answered when no failure is left to be reported. -/
theorem performsEnd (advancing : t.Advancing d) {op : Operation} {scan : Scan}
    (answers : (t.perform op).AnswersEnd scan) : d.failures = [] := by
  obtain ⟨answered,isEnd⟩ := answers
  have performs := t.performs op
  generalize t.perform op = step at performs answered
  cases performs with
  | quiet => cases answered
  | called op failed =>
    rcases nextAdvances advancing with ⟨_,none⟩ | ⟨going,_⟩
    · exact none
    · exact absurd ⟨scan,Option.some.inj answered,isEnd⟩ going

/- The first answer of the end in a session, if there is one. -/
theorem firstEnd (t : Tokenizer σ) (ops : List Operation) :
    (∀ step ∈ t.session ops, ∀ scan, ¬ step.AnswersEnd scan) ∨
    ∃ before op later scan, ops = before ++ op::later ∧
      (∀ step ∈ t.session before, ∀ scan, ¬ step.AnswersEnd scan) ∧
      ((t.after before).perform op).AnswersEnd scan := by
  induction ops generalizing t with
  | nil => exact .inl (List.forall_mem_nil _)
  | cons op ops ih =>
    by_cases here : ∃ scan, (t.perform op).AnswersEnd scan
    · obtain ⟨scan,answers⟩ := here
      exact .inr ⟨[],op,ops,scan,rfl,List.forall_mem_nil _,answers⟩
    · have first := not_exists.mp here
      rcases ih (t.perform op).tokenizer with others | ⟨before,op',later,scan,rfl,others,answers⟩
      · exact .inl (List.forall_mem_cons.mpr ⟨first,others⟩)
      · exact .inr ⟨op::before,op',later,scan,rfl,List.forall_mem_cons.mpr ⟨first,others⟩,answers⟩

/- Every call for the next token is answered. -/
theorem callsAnswered (t : Tokenizer σ) (ops : List Operation) :
    ops.count .next ≤ ((t.session ops).filterMap Step.result).length := by
  induction ops generalizing t with
  | nil => exact Nat.le_refl _
  | cons op ops ih =>
    have others := ih (t.perform op).tokenizer
    rw [sessionAnswers,List.count_cons]
    by_cases isNext : op = .next
    · subst isNext
      simp only [perform] at others ⊢
      simp
      omega
    · simp [isNext]
      omega

/- The end has not been answered yet, or has been for good. -/
def Underway (t : Tokenizer σ) : Prop :=
  (∃ d, t.Advancing d) ∨ ∃ scan source, t.Finished scan source

theorem performUnderway (start : t.Underway) (op : Operation) :
    (t.perform op).tokenizer.Underway ∧ ∀ scan, (t.perform op).result = some (.ok scan) →
      scan.message ≠ .endOfInput →
        scan.token.position.index < (t.perform op).tokenizer.position.index := by
  rcases start with ⟨d,advancing⟩ | ⟨last,source,finished⟩
  · constructor
    · by_cases ends : ∃ scan, (t.perform op).AnswersEnd scan
      · obtain ⟨scan,answers⟩ := ends
        exact .inr ⟨scan,_,performEnd answers⟩
      · obtain ⟨d',advancing',_⟩ := performAdvances advancing op (not_exists.mp ends)
        exact .inl ⟨d',advancing'⟩
    · intro scan answered going
      have performs := t.performs op
      generalize t.perform op = step at performs answered ⊢
      cases performs with
      | quiet => cases answered
      | called op failed =>
        have result : t.next.result = .ok scan := Option.some.inj answered
        rw [(nextCalls t).answered scan result]
        exact answeredAdvances advancing result going
  · obtain ⟨finished',next,iterate⟩ := performFinished finished op
    refine ⟨.inr ⟨last,source,finished'⟩,fun scan answered going => ?_⟩
    cases op with
    | configure => cases answered
    | iterate => cases (iterate rfl).symm.trans answered
    | next =>
      cases (next rfl).symm.trans answered
      exact absurd (congrArg Scan.message finished.answer).symm going

theorem drainAdvances (advancing : t.Advancing d) (quiet : d.failures = [])
    (going : t.failed = false) : ∃ scans : List Scan,
      t.drain.results = scans.map .ok ∧ scans.length ≤ t.left d+1 := by
  generalize size : t.left d = count
  induction count using Nat.strongRecOn generalizing t d with
  | ind count ih =>
    have yields : t.iterate = some {t.next with
        tokenizer := {t.next.tokenizer with failed := !t.next.result.isOk}} := by
      simp [iterate,isDone,going,advancing.live]
    rcases nextAdvances advancing with ⟨isEnd,_⟩ | ⟨_,d',⟨yields',live,behind⟩,less,failures⟩
    · obtain ⟨scan,answered,isEnd⟩ := isEnd
      have done := (nextEnd answered isEnd).done
      refine ⟨[scan],?_,Nat.le_add_left 1 _⟩
      rw [drainGoes yields,drainStops (by simp [iterate,isDone,done]),answered]
      rfl
    · rw [quiet,List.map_nil] at failures
      obtain ⟨none,quiet'⟩ := List.append_eq_nil_iff.mp failures.symm
      cases result : t.next.result with
      | error error => simp [Turn.cause?,result] at none
      | ok scan =>
        obtain ⟨scans,drained,bounded⟩ := ih _ (size ▸ less)
          (t := {t.next.tokenizer with failed := !t.next.result.isOk})
          ⟨yields',live,behind⟩ (List.map_eq_nil_iff.mp quiet') (by rw [result]; rfl) rfl
        refine ⟨scan::scans,?_,Nat.succ_le_succ (Nat.le_trans bounded (size ▸ less))⟩
        rw [drainGoes yields,drained,result]
        rfl

end Tokenizer

/- How operations go on a tokenizer over a source that delivers so much before it reports
the end. -/
structure Halts (g : Grammar) (source : σ) (d : Delivery) (ops : List Operation) : Prop where
  /-- Whatever is answered but the end is the token of some characters. -/
  progress : ∀ step ∈ (Tokenizer.ofSource g source).session ops, ∀ scan,
    step.result = some (.ok scan) → scan.message ≠ .endOfInput →
      scan.token.position.index < step.tokenizer.position.index
  /-- With more calls than items one of the first answers the end, and those before it that
  fail report each of the failures once. -/
  ends : d.length < ops.count .next → ∃ before op later scan, ops = before ++ op::later ∧
    (((Tokenizer.ofSource g source).after before).perform op).AnswersEnd scan ∧
    (((Tokenizer.ofSource g source).session before).filterMap Step.result).length ≤ d.length ∧
    ((Tokenizer.ofSource g source).session before).filterMap Step.cause? =
      d.failures.map .readFailure
  /-- No call asks more of the source than it delivers, and the end once. -/
  asked : ((Tokenizer.tracked g {} source).after ops).close.answers <+: d.answers

namespace Tokenizer

omit [CharSource σ] in
theorem ofSourceLeft (g : Grammar) (source : σ) (d : Delivery) :
    (ofSource g source).left d = d.length :=
  (congrArg (·+d.failures.length) (Nat.zero_add _)).trans d.lengthSum.symm

theorem ofSourceHalts (g : Grammar) {source : σ} {d : Delivery} (delivers : Delivers source d)
    (ops : List Operation) : Halts g source d ops := by
  have advancing : (ofSource g source).Advancing d :=
    ⟨ofSourceYields g {} delivers,rfl,nofun⟩
  have all := ofSourceLeft g source d
  constructor
  case progress =>
    intro step member
    obtain ⟨u,op,start,rfl⟩ := @sessionInvariant _ _ Underway _ (.inl ⟨d,advancing⟩)
      (fun u op start => (performUnderway start op).1) _ _ member
    exact (performUnderway start op).2
  case ends =>
    intro enough
    rcases firstEnd (ofSource g source) ops with none | ⟨before,op,later,scan,split,going,isEnd⟩
    · obtain ⟨_,_,bounded,_⟩ := sessionAdvances advancing ops none
      have calls := callsAnswered (ofSource g source) ops
      omega
    · obtain ⟨d',advancing',bounded,failures⟩ := sessionAdvances advancing before going
      refine ⟨before,op,later,scan,split,isEnd,by omega,?_⟩
      rw [failures,performsEnd advancing' isEnd,List.map_nil,List.append_nil]
  case asked =>
    have heard : (tracked g {} source).head.Heard d := .inl ⟨rfl,[],d,rfl,rfl,delivers⟩
    exact (heard.moves (afterMoves _ ops)).begins

theorem textHalts (g : Grammar) (text : String) :
    ∃ scans, tokenize g text = .ok scans ∧ scans.length ≤ text.length+1 := by
  let d : Delivery := text.toList.map .ok
  have delivers : Delivers (TextSource.ofString text) d := TextSource.delivers _
  have advancing : (ofSource g (TextSource.ofString text)).Advancing d :=
    ⟨ofSourceYields g {} delivers,rfl,nofun⟩
  obtain ⟨scans,drained,bounded⟩ :=
    drainAdvances advancing (Delivery.failuresMapOk _) rfl
  have all : (ofSource g (TextSource.ofString text)).left d = text.length := by
    rw [ofSourceLeft,List.length_map,String.length_toList]
  refine ⟨scans,?_,all ▸ bounded⟩
  rw [tokenize,drained]
  clear drained bounded
  induction scans with
  | nil => rfl
  | cons scan scans ih =>
    rw [List.map_cons,List.mapM_cons,ih]
    rfl

end Tokenizer

namespace Grammar

/- Scanning by a grammar comes to an end, whatever the source is and however much it would go
on to deliver after its first report of the end. -/
structure Finishes (g : Grammar) : Prop where
  sources : ∀ {σ : Type} [CharSource σ] (source : σ) (d : Delivery), Delivers source d →
    ∀ ops, Halts g source d ops
  endless : ∀ {ρ : Type} (ask : ρ → Answer × ρ) (s : ρ) (d : Delivery), Answering ask s d →
    ∀ budget, d.length < budget → ∀ ops, Halts g (Metered.mk s budget : Metered ask) d ops
  texts : ∀ text, ∃ scans, tokenize g text = .ok scans ∧ scans.length ≤ text.length+1

theorem scanningEnds (g : Grammar) : g.Finishes where
  sources _ _ delivers ops := Tokenizer.ofSourceHalts g delivers ops
  endless _ _ _ answering _ enough ops :=
    Tokenizer.ofSourceHalts g (Metered.delivers answering enough) ops
  texts text := Tokenizer.textHalts g text

/- A source that fails once, reports the end, and then delivers for ever. -/
def relapsing (e : ReadError) : Nat → Answer × Nat
  | 0 => (.ok (some 'a'),1)
  | 1 => (.error e,2)
  | 2 => (.ok none,3)
  | n+3 => (.ok (some 'a'),n+4)

theorem scanningEndsSample : ∃ (g : Grammar) (e : ReadError) (d : Delivery) (ops : List Operation),
    Draft.sample.compile = .ok g ∧ Answering (relapsing e) 0 d ∧ d.failures = [e] ∧
    d.length < ops.count .next ∧ Halts g (Metered.mk 0 3 : Metered (relapsing e)) d ops := by
  obtain ⟨g,compiles⟩ := Draft.sampleCompiles
  let e : ReadError := ⟨.timedOut,""⟩
  have answering : Answering (relapsing e) 0 [.ok 'a',.error e] :=
    .character rfl (.failure rfl (.finished rfl))
  exact ⟨g,e,_,[.next,.configure ⟨.contentOnly,true⟩,.next,.next],compiles,answering,rfl,by decide,
    (scanningEnds g).endless _ _ _ answering 3 (by decide) _⟩

end Grammar

end
end Munch
