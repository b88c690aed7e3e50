import Munch.Proofs.Moves
import Munch.Proofs.Wiring

/-! The places that a tokenizer reports. What its source has handed out is what it has
consumed, followed by what it has read ahead, so that every place it reports is the one
that some beginning of the source's text leads to. Main statement: a tokenizer stands
behind what it has consumed, and the line and the column of every place are those of the
text before it, however the text was cut into tokens and whatever failed in between. -/
namespace Munch

namespace Text

def inLine (ch : Char) : Bool := !OpenComment.endsLine ch

/- A line feed that does not complete a pair; every character comes with the one before. -/
def isLoneFeed (here : Char × Option Char) : Bool := here.1 = '\n' && here.2 ≠ some '\r'

def loneFeeds (previous : Option Char) (text : List Char) : Nat :=
  (text.zip (previous::text.map some)).countP isLoneFeed

def lastLine (text : List Char) : List Char := (text.reverse.takeWhile inLine).reverse

end Text

/- The place behind a text, as it can be read off the text. -/
def Position.after (text : List Char) : Position :=
  ⟨text.length,1+text.count '\r'+Text.loneFeeds none text,1+(Text.lastLine text).length⟩

namespace Cursor
open Text

theorem advanceLine (k : Cursor) (ch : Char) :
    (k.advance ch).position.line =
      k.position.line+[ch].count '\r'+[(ch,k.previous)].countP isLoneFeed := by
  simp only [advance,Position.advance]
  by_cases cr : ch = '\r'
  · simp [cr,isLoneFeed]
  · by_cases lf : ch = '\n'
    · by_cases pair : k.previous = some '\r' <;> simp [lf,pair,isLoneFeed]
    · simp [cr,lf,isLoneFeed]

theorem advanceAllLine (k : Cursor) (run : List Char) :
    (k.advanceAll run).position.line =
      k.position.line+run.count '\r'+loneFeeds k.previous run := by
  induction run generalizing k with
  | nil => rfl
  | cons ch run ih =>
    have counts : ([ch] ++ run).count '\r' = [ch].count '\r'+run.count '\r' :=
      List.count_append
    have feeds : loneFeeds k.previous (ch::run) =
        [(ch,k.previous)].countP isLoneFeed+loneFeeds (some ch) run := by
      rw [loneFeeds,loneFeeds,← List.countP_append]
      rfl
    rw [List.singleton_append] at counts
    rw [advanceAllCons,ih,advanceLine,counts,feeds]
    simp only [advance]
    omega

/- The text is given from its end, since the last character decides. -/
theorem advanceAllColumn (run : List Char) :
    (start.advanceAll run.reverse).previous = run.head? ∧
      (start.advanceAll run.reverse).position.column = 1+(run.takeWhile inLine).length := by
  induction run with
  | nil => exact ⟨rfl,rfl⟩
  | cons ch run ih =>
    obtain ⟨previous,column⟩ := ih
    rw [List.reverse_cons,advanceAllAppend,advanceAllCons,advanceAllNil]
    refine ⟨rfl,?_⟩
    simp only [advance,Position.advance]
    by_cases cr : ch = '\r'
    · simp [cr,inLine,OpenComment.endsLine]
    · by_cases lf : ch = '\n'
      · by_cases pair : run.head? = some '\r'
        · obtain ⟨rest,rfl⟩ := List.head?_eq_some_iff.mp pair
          rw [if_neg cr,if_pos lf,if_pos (previous.trans pair)]
          simpa [lf,inLine,OpenComment.endsLine] using column
        · simp [lf,previous,pair,inLine,OpenComment.endsLine]
      · rw [if_neg cr,if_neg lf]
        simp [column,cr,lf,inLine,OpenComment.endsLine]
        omega

theorem advanceAllPlace (text : List Char) :
    (start.advanceAll text).position = Position.after text := by
  have index := advanceAllIndex start text
  have line := advanceAllLine start text
  have column := (advanceAllColumn text.reverse).2
  rw [List.reverse_reverse] at column
  generalize (start.advanceAll text).position = p at index line column
  obtain ⟨_,_,_⟩ := p
  dsimp only at index line column
  rw [index,line,column,Position.after,lastLine,List.length_reverse]
  exact congrArg (Position.mk · _ _) (Nat.zero_add _)

end Cursor

theorem Position.afterPair (text : List Char) :
    after (text ++ ['\r','\n']) = ⟨text.length+2,(after text).line+1,1⟩ := by
  rw [← Cursor.advanceAllPlace,← Cursor.advanceAllPlace,Cursor.advanceAllAppend]
  have index := Cursor.advanceAllIndex Cursor.start text
  rw [show Cursor.start.position.index = 0 from rfl,Nat.zero_add] at index
  rw [← index]
  rfl

example : Position.after ['a','\r','\n','\n','b'] = ⟨5,3,2⟩ := by decide

/- Answers that a source gives before it reports the end, and what it is then. -/
inductive Reads {σ : Type} [CharSource σ] : σ → Delivery → σ → Prop where
  | start (s) : Reads s [] s
  | character {s s' s'' ch rest} (read : CharSource.read s = (.ok (some ch),s'))
      (tail : Reads s' rest s'') : Reads s (.ok ch::rest) s''
  | failure {s s' s'' e rest} (read : CharSource.read s = (.error e,s'))
      (tail : Reads s' rest s'') : Reads s (.error e::rest) s''

namespace Reads
variable {σ : Type} [CharSource σ] {s s' s'' : σ} {d : Delivery}

theorem trans {later : Delivery} (reads : Reads s d s') (next : Reads s' later s'') :
    Reads s (d ++ later) s'' := by
  induction reads with
  | start => exact next
  | character read tail ih => exact .character read (ih next)
  | failure read tail ih => exact .failure read (ih next)

/- A source has one history: of two beginnings of it, one begins the other. -/
theorem comparable {other : Delivery} (one : Reads s d s') (two : Reads s other s'') :
    d <+: other ∨ other <+: d := by
  induction one generalizing other with
  | start => exact .inl (List.nil_prefix)
  | character read tail ih =>
    cases two with
    | start => exact .inr (List.nil_prefix)
    | failure read' => rw [read] at read'; cases read'
    | character read' tail' =>
      rw [read] at read'
      cases read'
      exact (ih tail').imp (List.prefix_cons_inj _).mpr (List.prefix_cons_inj _).mpr
  | failure read tail ih =>
    cases two with
    | start => exact .inr (List.nil_prefix)
    | character read' => rw [read] at read'; cases read'
    | failure read' tail' =>
      rw [read] at read'
      cases read'
      exact (ih tail').imp (List.prefix_cons_inj _).mpr (List.prefix_cons_inj _).mpr

end Reads

section
variable {σ : Type} [CharSource σ] {source : σ}

/- A place that some beginning of the source's text leads to. -/
def Reached (source : σ) (p : Position) : Prop :=
  ∃ d s run, Reads source d s ∧ run <+: d.characters ∧ p = (Cursor.start.advanceAll run).position

/- What has been consumed: all that the source has handed out but what is read ahead. -/
def Head.Consumed (source : σ) (h : Head σ) (run : List Char) : Prop :=
  ∃ d s, Reads source d s ∧ d.characters = run ++ h.input.pending ∧
    match h.input.ended with
      | false => h.input.source = s
      | true => CharSource.read s = (.ok none,h.input.source)

/- All that the source has handed out has been consumed or is read ahead. -/
def Head.Traces (source : σ) (h : Head σ) : Prop :=
  ∃ run, h.Consumed source run ∧ h.cursor = Cursor.start.advanceAll run

namespace Head

theorem moveTraces {h h' : Head σ} (traces : h.Traces source) (move : h.Move h') :
    h'.Traces source := by
  obtain ⟨run,⟨d,s,reads,characters,stage⟩,cursor⟩ := traces
  cases move with
  | character read =>
    subst stage
    refine ⟨run,⟨_,_,reads.trans (.character read (.start _)),?_,rfl⟩,cursor⟩
    rw [Delivery.charactersAppend,characters,List.append_assoc]
    rfl
  | finished read =>
    subst stage
    exact ⟨run,⟨d,_,reads,characters,read⟩,cursor⟩
  | failure read =>
    subst stage
    refine ⟨run,⟨_,_,reads.trans (.failure read (.start _)),?_,rfl⟩,cursor⟩
    rw [Delivery.charactersAppend,characters]
    exact List.append_nil _
  | consume h count =>
    refine ⟨run ++ h.ahead count,⟨d,s,reads,?_,stage⟩,?_⟩
    · rw [characters,List.append_assoc]
      exact congrArg _ (List.take_append_drop _ _).symm
    · simp only [consume,cursor,Cursor.advanceAllAppend]

theorem movesTraces {h h' : Head σ} (traces : h.Traces source) (moves : h.Moves h') :
    h'.Traces source := by
  induction moves with
  | refl => exact traces
  | tail _ move ih => exact moveTraces ih move

theorem Traces.reached {h : Head σ} (traces : h.Traces source) : Reached source h.position := by
  obtain ⟨run,⟨d,s,reads,characters,_⟩,cursor⟩ := traces
  exact ⟨d,s,run,reads,⟨_,characters.symm⟩,congrArg Cursor.position cursor⟩

theorem Traces.place {h : Head σ} (traces : h.Traces source) :
    ∃ run, h.Consumed source run ∧ h.position = Position.after run := by
  obtain ⟨run,consumed,cursor⟩ := traces
  exact ⟨run,consumed,(congrArg Cursor.position cursor).trans (Cursor.advanceAllPlace run)⟩

end Head

theorem Reached.after {p : Position} (reached : Reached source p) {d : Delivery} {s : σ}
    (reads : Reads source d s) (enough : p.index ≤ d.characters.length) :
    p = Position.after (d.characters.take p.index) := by
  obtain ⟨d',s',run,reads',begins,rfl⟩ := reached
  have index : (Cursor.start.advanceAll run).position.index = run.length :=
    (Cursor.advanceAllIndex _ _).trans (Nat.zero_add _)
  rw [index] at enough ⊢
  have within : run <+: d.characters := by
    rcases reads.comparable reads' with shorter | longer
    · exact List.prefix_of_prefix_length_le begins (shorter.filterMap _) enough
    · exact begins.trans (longer.filterMap _)
  rw [← List.prefix_iff_eq_take.mp within]
  exact Cursor.advanceAllPlace run

/- Every place that is known after a step. -/
def Step.reported (step : Step σ) : List Position :=
  step.tokenizer.position :: match step.result with
    | none => []
    | some (.ok scan) => [scan.token.position]
    | some (.error e) => e.position.toList

namespace Tokenizer

structure Traces (source : σ) (t : Tokenizer σ) : Prop where
  head : t.head.Traces source
  parked : ∀ c, t.openComment = some c → Reached source c.start

theorem Traces.began {t : Tokenizer σ} (traces : t.Traces source) : Reached source t.began := by
  unfold Tokenizer.began
  cases parked : t.openComment with
  | some c => exact traces.parked c parked
  | none => exact traces.head.reached

theorem nextTraces {t : Tokenizer σ} (traces : t.Traces source) :
    t.next.tokenizer.Traces source := by
  have calls := nextCalls t
  refine ⟨Head.movesTraces traces.head calls.moves,?_⟩
  intro c parked
  rw [calls.parked c parked]
  exact traces.began

theorem performTraces {t : Tokenizer σ} (traces : t.Traces source) (op : Operation) :
    (t.perform op).tokenizer.Traces source ∧
      ∀ p ∈ (t.perform op).reported, Reached source p := by
  have performs := t.performs op
  generalize t.perform op = step at performs ⊢
  cases performs with
  | quiet op settings =>
    refine ⟨⟨traces.head,traces.parked⟩,?_⟩
    intro p member
    cases List.mem_singleton.mp member
    exact traces.head.reached
  | called op failed =>
    have after := nextTraces traces
    refine ⟨⟨after.head,after.parked⟩,?_⟩
    intro p member
    rcases List.mem_cons.mp member with rfl | member
    · exact after.head.reached
    · have calls := nextCalls t
      cases result : t.next.result with
      | ok scan =>
        simp only [result,List.mem_singleton] at member
        rw [member,calls.answered scan result]
        exact traces.began
      | error error =>
        simp only [result,calls.interrupted error result,Option.toList_some,
          List.mem_singleton] at member
        rw [member]
        exact after.head.reached

theorem ofSourceTraces (g : Grammar) (settings : Settings) (source : σ) :
    ((ofSource g source).configure settings).Traces source :=
  ⟨⟨[],⟨[],source,.start _,rfl,rfl⟩,rfl⟩,nofun⟩

theorem sessionPlaces (g : Grammar) (settings : Settings) (source : σ) {ops : List Operation}
    {step : Step σ} (member : step ∈ ((ofSource g source).configure settings).session ops)
    {p : Position} (reported : p ∈ step.reported) :
    (∃ run, step.tokenizer.head.Consumed source run ∧
      step.tokenizer.position = Position.after run) ∧
      (∃ d s, Reads source d s ∧ p.index ≤ d.characters.length) ∧
      ∀ d s, Reads source d s → p.index ≤ d.characters.length →
        p = Position.after (d.characters.take p.index) := by
  obtain ⟨t,op,traces,rfl⟩ := sessionInvariant (ofSourceTraces g settings source)
    (fun u op traces => (performTraces traces op).1) member
  obtain ⟨after,places⟩ := performTraces traces op
  have reached := places p reported
  refine ⟨after.head.place,?_,fun d s reads => reached.after reads⟩
  obtain ⟨d,s,run,reads,begins,rfl⟩ := reached
  refine ⟨d,s,reads,?_⟩
  rw [Cursor.advanceAllIndex]
  exact Nat.le_trans (Nat.le_of_eq (Nat.zero_add _)) begins.length_le

/- Behind a pair that a failure has parted. -/
theorem sessionPlacesSample : ∃ (g : Grammar) (source : Script) (step : Step Script),
    Draft.sample.compile = .ok g ∧
      source.answers = [.ok (some '\r'),.error ⟨.timedOut,""⟩,.ok (some '\n'),.ok none] ∧
      step ∈ ((ofSource g source).configure {}).session [.next,.iterate,.next] ∧
      ⟨2,2,1⟩ ∈ step.reported ∧
      (∃ run, step.tokenizer.head.Consumed source run ∧
        step.tokenizer.position = Position.after run) ∧
      (∃ d s, Reads source d s ∧ 2 ≤ d.characters.length) ∧
      ∀ d s, Reads source d s → 2 ≤ d.characters.length →
        ⟨2,2,1⟩ = Position.after (d.characters.take 2) := by
  obtain ⟨g,compiles⟩ := Draft.sampleCompiles
  let source : Script := ⟨[.ok (some '\r'),.error ⟨.timedOut,""⟩,.ok (some '\n'),.ok none]⟩
  let steps (g : Grammar) := ((ofSource g source).configure {}).session [.next,.iterate,.next]
  have places : (steps g).map (·.tokenizer.position) = [⟨1,2,1⟩,⟨1,2,1⟩,⟨2,2,1⟩] :=
    Draft.ofCompile (f := fun g => (steps g).map (·.tokenizer.position)) compiles (by cbv)
  obtain ⟨step,member,place⟩ : ∃ step ∈ steps g, step.tokenizer.position = ⟨2,2,1⟩ := by
    apply List.mem_map.mp
    rw [places]
    decide
  have reported : ⟨2,2,1⟩ ∈ step.reported := by
    rw [← place]
    exact .head _
  exact ⟨g,source,step,compiles,rfl,member,reported,sessionPlaces g {} source member reported⟩

end Tokenizer
end
end Munch
