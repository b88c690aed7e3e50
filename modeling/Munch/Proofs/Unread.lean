import Mathlib.Order.MinMax
import Munch.Proofs.Appended
import Munch.Proofs.Handed
import Munch.Proofs.Lookahead

/-! What of a source is left unread. Over a source that does not fail, what has been handed
out after a call is what the farthest of its searches needs, or what had been handed out
before it, if that was more; the end has been reported when one of the searches needs to
know. Main statement: this is so for every call that does not stand at the end, whatever has
been done with the tokenizer before, and the source that is given back has the rest of the
text left. -/
namespace Munch

namespace Grammar

/- How many characters the automaton can be led along from an offset of a text. -/
def led (g : Grammar) (text : List Char) (q : Nat) : Nat := g.stride g.initial (text.drop q)

theorem ledGreatest (g : Grammar) (text : List Char) (q : Nat) :
    IsGreatest {n | n ≤ text.length-q ∧
      ∃ final, g.follow g.initial ((text.drop q).take n) = some final} (g.led text q) := by
  rw [← List.length_drop]
  exact g.strideGreatest g.initial (text.drop q)

theorem reachDrop (g : Grammar) (text : List Char) (start q : Nat) :
    start+(q+g.reach ((text.drop start).drop q)) = start+q+g.led text (start+q)+1 := by
  rw [List.drop_drop,reach,led]
  omega

end Grammar

section
variable {σ : Type}

def Recorded.ToldEnd (r : Recorded σ) : Prop := .ok none ∈ r.answers

/- How far a call looks ahead that takes the text from one offset to another: the characters
that the source has handed out, and whether it has reported the end. -/
structure LooksAhead (g : Grammar) (nested : Bool) (text : List Char) (start finish : Nat)
    (scan : Scan) (before after : Recorded σ) : Prop where
  plain : scan.message = .tokenRead ∨ scan.message = .lexicalError →
    after.handed.length = max before.handed.length (min (start+g.led text start+1) text.length) ∧
    (after.ToldEnd ↔ before.ToldEnd ∨ start+g.led text start = text.length)
  line : scan.message = .commentLineRead →
    after.handed.length = max (max before.handed.length
      (min (start+g.led text start+1) text.length)) (min (finish+1) text.length) ∧
    (after.ToldEnd ↔
      before.ToldEnd ∨ start+g.led text start = text.length ∨ finish = text.length)
  block : scan.message = .commentBlockRead → ∃ closed opening count,
    g.BlockComment nested (text.drop start) scan.token.symbol closed opening count ∧
    finish = start+opening+count ∧
    IsGreatest (insert before.handed.length {n | ∃ q,
      g.Searched nested (text.drop start) opening q ∧
      n = min (start+q+g.led text (start+q)+1) text.length}) after.handed.length ∧
    (after.ToldEnd ↔ before.ToldEnd ∨
      (∃ q, g.Searched nested (text.drop start) opening q ∧
        start+q+g.led text (start+q) = text.length) ∨ closed = false)

/- A call has asked for so many characters of a text, the report of the end among them. -/
structure Asks (text : List Char) (count : Nat) (before after : Recorded σ) : Prop where
  handed : after.handed.length = max before.handed.length (min count text.length)
  told : after.ToldEnd ↔ before.ToldEnd ∨ text.length < count

end

section
variable {σ : Type} {g : Grammar} {settings : Settings} {text : List Char} {start : Nat}
  {x : Lexeme} {before after : Recorded σ}

/- How far the searches of a block comment look ahead in the whole text. -/
theorem searchesAhead (within : start ≤ text.length)
    (here : lexeme g settings (text.drop start) = some x)
    (isBlock : x.message = .commentBlockRead) : ∃ opening count, x.length = opening+count ∧
      g.BlockComment settings.nestedBlockComments (text.drop start) x.symbol (!x.cutOff)
        opening count ∧
      (∀ q, g.Searched settings.nestedBlockComments (text.drop start) opening q →
        start+q+g.led text (start+q)+1 ≤ start+lookahead g settings (text.drop start)) ∧
      (∃ q, g.Searched settings.nestedBlockComments (text.drop start) opening q ∧
        min (start+lookahead g settings (text.drop start)) text.length ≤
          start+q+g.led text (start+q)+1) ∧
      (text.length < start+lookahead g settings (text.drop start) ↔
        (∃ q, g.Searched settings.nestedBlockComments (text.drop start) opening q ∧
          start+q+g.led text (start+q) = text.length) ∨ x.cutOff = true) := by
  obtain ⟨opening,count,length,comment,⟨attained,bounds⟩,cutOff⟩ := lookaheadBlock here isBlock
  have size : (text.drop start).length = text.length-start := List.length_drop
  have searched (q) (is : g.Searched settings.nestedBlockComments (text.drop start) opening q) :
      start+q+g.led text (start+q)+1 ≤ start+lookahead g settings (text.drop start) := by
    rw [← g.reachDrop]
    exact Nat.add_le_add_left (bounds (.inl ⟨q,is,rfl⟩)) start
  refine ⟨opening,count,length,comment,searched,?_,?_⟩
  · rcases attained with ⟨q,is,far⟩ | ⟨cut,_⟩
    · refine ⟨q,is,Nat.le_trans (Nat.min_le_left _ _) ?_⟩
      rw [far,g.reachDrop]
    · obtain ⟨q,is,far⟩ := cutOff cut
      refine ⟨q,is,Nat.le_trans (Nat.min_le_right _ _) ?_⟩
      rw [← g.reachDrop]
      omega
  · constructor
    · intro beyond
      rcases attained with ⟨q,is,far⟩ | ⟨cut,_⟩
      · have inside := is.within
        have led := g.strideWithin g.initial (text.drop (start+q))
        rw [List.length_drop] at led
        rw [far,g.reachDrop,Grammar.led] at beyond
        exact .inl ⟨q,is,by rw [Grammar.led]; omega⟩
      · exact .inr cut
    · rintro (⟨q,is,whole⟩ | cut)
      · exact Nat.lt_of_lt_of_le (Nat.lt_succ_of_le whole.ge) (searched q is)
      · have further := bounds (.inr ⟨cut,rfl⟩)
        omega

theorem Asks.looksAhead (within : start ≤ text.length)
    (here : lexeme g settings (text.drop start) = some x)
    (asks : Asks text (start+lookahead g settings (text.drop start)) before after) (p : Position) :
    LooksAhead g settings.nestedBlockComments text start (start+x.length) (x.scan p)
      before after := by
  obtain ⟨handed,told⟩ := asks
  have led : g.led text start = g.stride g.initial (text.drop start) := rfl
  constructor
  case plain =>
    intro isPlain
    have bounded := g.strideWithin g.initial (text.drop start)
    rw [List.length_drop,← led] at bounded
    rw [lookaheadPlain here isPlain,Grammar.reach,← led] at handed told
    exact ⟨handed,told.trans (or_congr_right (by omega))⟩
  case line =>
    intro isLine
    have bounded := g.strideWithin g.initial (text.drop start)
    have extent := lexemeExtent here
    rw [List.length_drop] at bounded extent
    rw [lookaheadLine here isLine,Grammar.reach] at handed told
    rw [led]
    refine ⟨by omega,told.trans (or_congr_right (by omega))⟩
  case block =>
    intro isBlock
    obtain ⟨opening,count,length,comment,searched,⟨far,is,farthest⟩,beyond⟩ :=
      searchesAhead within here isBlock
    refine ⟨_,opening,count,comment,by omega,⟨?_,?_⟩,
      told.trans (or_congr_right (beyond.trans (or_congr_right (by simp))))⟩
    · have most := searched far is
      rcases Nat.le_total (min (start+lookahead g settings (text.drop start)) text.length)
        before.handed.length with fewer | more
      · exact .inl (handed.trans (Nat.max_eq_left fewer))
      · rw [Nat.max_eq_right more] at handed
        have least := Nat.le_min.mpr ⟨farthest,Nat.min_le_right _ _⟩
        exact .inr ⟨far,is,handed.trans (Nat.le_antisymm least (min_le_min_right _ most))⟩
    · rw [handed]
      rintro n (rfl | ⟨q,is,rfl⟩)
      · exact Nat.le_max_left _ _
      · exact Nat.le_trans (min_le_min_right _ (searched q is)) (Nat.le_max_right _ _)

variable [CharSource σ]

/- Between two calls: somewhere in the text, or behind it with the end answered. -/
inductive Tokenizer.Standing (g : Grammar) (text : List Char) (t : Tokenizer (Recorded σ)) :
    Prop where
  | inside {offset count} (stands : t.Stands g t.settings text offset)
      (sees : t.head.input.Sees (text.drop offset) count) : Standing g text t
  | behind {scan source} (finished : t.Finished scan source)
      (last : scan.token.position.index = text.length) : Standing g text t

namespace Tokenizer
variable {t : Tokenizer (Recorded σ)}

theorem nextAsks {count : Nat} (stands : t.Stands g t.settings text start)
    (sees : t.head.input.Sees (text.drop start) count) (accounted : t.head.Accounted)
    (here : lexeme g t.settings (text.drop start) = some x) :
    Asks text (start+lookahead g t.settings (text.drop start)) t.close t.next.tokenizer.close := by
  obtain ⟨rfl⟩ := stands.grammar
  have sees' := nextSees sees stands.closed stands.live here
  have accounted' := accounted.moves (nextCalls t).moves
  have reached := lookaheadReached here
  have extent := lexemeExtent here
  have index : t.head.position.index = start := stands.index
  have index' : t.next.tokenizer.head.position.index = start+x.length :=
    (stands.takes here).2.2.index
  constructor
  case handed =>
    have length := accounted.length
    have length' := accounted'.length
    simp only [sees.pending,sees'.pending,index,index',List.length_take,List.length_drop]
      at length length' extent
    rw [close,close,length,length']
    omega
  case told =>
    have told := accounted.told
    have told' := accounted'.told
    simp only [sees.ended,sees'.ended,List.length_drop,decide_eq_true_eq] at told told' extent
    rw [Recorded.ToldEnd,Recorded.ToldEnd,close,close,told,told']
    omega

/- A tokenizer that stands in a text goes on to stand in it. -/
theorem Standing.perform (standing : t.Standing g text) (op : Operation) :
    (t.perform op).tokenizer.Standing g text := by
  cases standing with
  | behind finished last => exact .behind (performFinished finished op).1 last
  | inside stands sees =>
    have performs := t.performs op
    generalize t.perform op = step at performs ⊢
    cases performs with
    | quiet op settings => exact .inside {stands with configured := rfl} sees
    | @called op failed =>
      rename_i offset count
      cases here : lexeme g t.settings (text.drop offset) with
      | none =>
        have done := List.drop_eq_nil_iff.mp (lexemeNone.mp here)
        have last := Nat.le_antisymm stands.within done
        obtain ⟨done,closed,answer,source⟩ := nextEnd (stands.atEnd last).1 rfl
        exact .behind ⟨done,closed,answer,source⟩ (stands.index.trans last)
      | some x =>
        have further := (stands.takes here).2.2
        have sees' := nextSees sees stands.closed stands.live (stands.grammar ▸ here)
        rw [List.drop_drop] at sees'
        exact .inside {further with configured := rfl} sees'

/- What has not been handed out is left, unless the end has been reported. -/
theorem Stands.unread {count : Nat} (stands : t.Stands g settings text start)
    (sees : t.head.input.Sees (text.drop start) count) (accounted : t.head.Accounted) :
    (t.close.ToldEnd → t.close.handed.length = text.length) ∧ (¬ t.close.ToldEnd →
      Delivers t.close.source ((text.drop t.close.handed.length).map .ok)) := by
  have index : t.head.position.index = start := stands.index
  have within := stands.within
  have length := accounted.length
  have told := accounted.told
  rw [index,sees.pending,List.length_take,List.length_drop] at length
  rw [Recorded.ToldEnd,close,told,length]
  cases ended : t.head.input.ended with
  | true =>
    have past := sees.past ended
    rw [List.length_drop] at past
    exact ⟨fun _ => by omega,fun untold => absurd rfl untold⟩
  | false =>
    have short := sees.short ended
    rw [List.length_drop] at short
    have delivers := Recorded.unrecorded (sees.left ended)
    rw [List.drop_drop] at delivers
    refine ⟨nofun,fun _ => ?_⟩
    rwa [Nat.min_eq_left short]

theorem trackedStanding {source : σ} (delivers : Delivers source (text.map .ok)) (g : Grammar)
    (settings : Settings) (ops : List Operation) :
    ((tracked g settings source).after ops).Standing g text := by
  have recorded := Recorded.delivers delivers []
  have stands : (tracked g settings source).Stands g settings text 0 :=
    ⟨rfl,rfl,rfl,rfl,Nat.zero_le _,⟨_,.inr ⟨rfl,recorded⟩,Delivery.failuresMapOk _,
      Delivery.charactersMapOk _⟩,rfl⟩
  have sees : (tracked g settings source).head.input.Sees (text.drop 0) 0 :=
    ⟨Nat.zero_le _,rfl,rfl,fun _ => recorded⟩
  exact afterInvariant (.inside stands sees) (fun u op h => h.perform op) ops

theorem handedAsFar {source : σ} (delivers : Delivers source (text.map .ok)) (g : Grammar)
    (settings : Settings) (ops : List Operation) :
    (∀ q, IsGreatest {n | n ≤ text.length-q ∧
      ∃ final, g.follow g.initial ((text.drop q).take n) = some final} (g.led text q)) ∧
    let u := (tracked g settings source).after ops
    u.position.index < text.length → ∃ scan, u.next.result = .ok scan ∧
      scan.message ≠ .endOfInput ∧ scan.token.position = u.position ∧
      LooksAhead g u.settings.nestedBlockComments text u.position.index
        u.next.tokenizer.position.index scan u.close u.next.tokenizer.close ∧
      (u.next.tokenizer.close.ToldEnd →
        u.next.tokenizer.close.handed.length = text.length) ∧
      (¬ u.next.tokenizer.close.ToldEnd → Delivers u.next.tokenizer.close.source
        ((text.drop u.next.tokenizer.close.handed.length).map .ok)) ∧
      ∀ left, Views left → left source = text → left u.next.tokenizer.close.source =
        text.drop u.next.tokenizer.close.handed.length := by
  refine ⟨g.ledGreatest text,?_⟩
  intro u inside
  have accounted : u.head.Accounted := trackedAccounted g settings source ops
  have standing : u.Standing g text := trackedStanding delivers g settings ops
  have moves : (tracked g settings source).head.Moves u.head := afterMoves _ ops
  generalize u = u at inside accounted standing moves ⊢
  cases standing with
  | behind finished last =>
    rw [← finished.answer] at last
    exact absurd last (Nat.ne_of_lt inside)
  | @inside offset count stands sees =>
    have index := stands.index
    rw [index] at inside ⊢
    cases here : lexeme g u.settings (text.drop offset) with
    | none => exact absurd (List.drop_eq_nil_iff.mp (lexemeNone.mp here)) (Nat.not_le_of_lt inside)
    | some x =>
      obtain ⟨result,_,further⟩ := stands.takes here
      have asks := nextAsks stands sees accounted here
      have sees' := nextSees sees stands.closed stands.live (stands.grammar ▸ here)
      rw [List.drop_drop] at sees'
      have accounted' := accounted.moves (nextCalls u).moves
      obtain ⟨told,untold⟩ := further.unread sees' accounted'
      refine ⟨_,result,lexemeMessage here,rfl,?_,told,untold,fun left views whole => ?_⟩
      · rw [further.index]
        exact asks.looksAhead stands.within here u.position
      · have kept := Head.movesLeft views (moves.trans (nextCalls u).moves)
        rw [show left (tracked g settings source).head.input.source.source = text from whole] at kept
        exact (List.drop_left' rfl).symm.trans (congrArg (List.drop _) kept)

/- A word that would go on behind a comment. Over a text that ends like it would not, the
call before the comment has read more than the comment needs. -/
def overreaching : Draft where
  name := "overreaching"
  symbols := #[("End",.endOfInput),("Error",.error),("word",.terminal),
    ("open",.commentBlockStart),("close",.commentBlockEnd)]
  charSets := #[.ofString "a",.ofString "/",.ofString "*",.ofString "z",.ofString "x"]
  accepts := #[none,some 2,none,none,none,none,none,none,some 2,none,some 3,none,some 4]
  wires := #[⟨0,0,1⟩,⟨1,1,2⟩,⟨2,2,3⟩,⟨3,2,4⟩,⟨4,1,5⟩,⟨5,3,6⟩,⟨6,3,7⟩,⟨7,4,8⟩,⟨0,1,9⟩,⟨9,2,10⟩,
    ⟨0,2,11⟩,⟨11,1,12⟩]

theorem overreachingCompiles : ∃ g, overreaching.compile = .ok g := Draft.compilesOk (by cbv)

/- The comment in "a/**/zzy", behind the word that has been taken. -/
def behindWord (g : Grammar) : Tokenizer (Recorded TextSource) :=
  (tracked g {} (TextSource.ofString "a/**/zzy")).after [.next]

theorem behindWordPlace {g : Grammar} (compiles : overreaching.compile = .ok g) :
    (behindWord g).position.index = 1 :=
  Draft.ofCompile (f := fun g => (behindWord g).position.index) compiles (by cbv)

theorem handedAsFarSample : ∃ (g : Grammar) (scan : Scan), overreaching.compile = .ok g ∧
    (behindWord g).next.result = .ok scan ∧
    LooksAhead g (behindWord g).settings.nestedBlockComments "a/**/zzy".toList 1
      (behindWord g).next.tokenizer.position.index scan (behindWord g).close
      (behindWord g).next.tokenizer.close ∧
    (behindWord g).next.tokenizer.close.source.remaining =
      "a/**/zzy".toList.drop (behindWord g).next.tokenizer.close.handed.length := by
  obtain ⟨g,compiles⟩ := overreachingCompiles
  have place := behindWordPlace compiles
  have inside : (behindWord g).position.index < "a/**/zzy".toList.length := by
    rw [place]
    decide
  obtain ⟨scan,answers,_,_,looks,_,_,left⟩ :=
    (handedAsFar (TextSource.delivers "a/**/zzy".toList) g {} [.next]).2 inside
  have start : ((tracked g {} (TextSource.mk "a/**/zzy".toList)).after [.next]).position.index = 1 :=
    place
  rw [start] at looks
  exact ⟨g,scan,compiles,answers,looks,left _ TextSource.views rfl⟩

/- The searches of a block comment alone do not tell how far has been read. -/
theorem searchesTooNear : ∃ (g : Grammar) (text : List Char) (scan : Scan),
    overreaching.compile = .ok g ∧ text = "a/**/zzy".toList ∧ (behindWord g).position.index = 1 ∧
    (behindWord g).next.result = .ok scan ∧ scan.message = .commentBlockRead ∧
    g.Leading (text.drop 1) 2 scan.token.symbol ∧
    ¬ IsGreatest {n | ∃ q, g.Searched false (text.drop 1) 2 q ∧
      n = min (1+q+g.led text (1+q)+1) text.length}
        (behindWord g).next.tokenizer.close.handed.length := by
  obtain ⟨g,compiles⟩ := overreachingCompiles
  obtain ⟨text,whole⟩ : ∃ text, text = "a/**/zzy".toList := ⟨_,rfl⟩
  have place := behindWordPlace compiles
  have settings : (behindWord g).settings = {} :=
    Draft.ofCompile (f := fun g => (behindWord g).settings) compiles (by cbv)
  have handed : (behindWord g).close.handed.length = 8 :=
    Draft.ofCompile (f := fun g => (behindWord g).close.handed.length) compiles (by cbv)
  have opens : g.longest (text.drop 1) = .found ⟨2,⟨3,"open",.commentBlockStart⟩,Nat.two_pos⟩ :=
    Draft.ofCompile (f := fun g => g.longest (text.drop 1)) compiles (by rw [whole]; cbv)
  have closes : g.longest (text.drop 3) = .found ⟨2,⟨4,"close",.commentBlockEnd⟩,Nat.two_pos⟩ :=
    Draft.ofCompile (f := fun g => g.longest (text.drop 3)) compiles (by rw [whole]; cbv)
  have here : g.led text 1 = 2 :=
    Draft.ofCompile (f := fun g => g.led text 1) compiles (by rw [whole]; cbv)
  have there : g.led text 3 = 2 :=
    Draft.ofCompile (f := fun g => g.led text 3) compiles (by rw [whole]; cbv)
  obtain ⟨x,comment,isBlock,symbol⟩ : ∃ x, lexeme g {} (text.drop 1) = some x ∧
      x.message = .commentBlockRead ∧ x.symbol = ⟨3,"open",.commentBlockStart⟩ := by
    rw [lexeme,opens]
    exact ⟨_,rfl,rfl,rfl⟩
  have standing : (behindWord g).Standing g text :=
    trackedStanding (whole ▸ TextSource.delivers _) g {} [.next]
  cases standing with
  | behind finished last =>
    rw [← finished.answer,whole] at last
    cases place.symm.trans last
  | @inside offset count stands sees =>
    cases stands.index.symm.trans place
    rw [← settings] at comment
    have more := (nextAsks stands sees (trackedAccounted _ _ _ _) comment).handed
    rw [handed] at more
    refine ⟨g,text,_,compiles,whole,place,(stands.takes comment).1,isBlock,?_,fun greatest => ?_⟩
    · rw [Lexeme.scan,symbol]
      exact Grammar.longestFound.mp opens
    · obtain ⟨q,searched,far⟩ := greatest.1
      have marker : g.Closes ((text.drop 1).drop 2) := by
        rw [List.drop_drop]
        exact (Grammar.closesFound closes).mpr rfl
      rcases searched.closed marker with rfl | rfl
      · rw [Nat.add_zero,here] at far
        omega
      · rw [there] at far
        omega

end Tokenizer
end
end Munch
