import Munch.Proofs.Transcript
import Munch.Proofs.Wiring

/-! Characters that no edge admits. Such a character stops every walk, so that in front of
it a match is found as if the text ended there. Main statement: put into a text where an
answer begins, but not into a comment, it is answered as an error of its own, and what is
answered before and behind it stays the same. -/
namespace Munch

namespace Grammar

/- No character set of an edge holds the character. -/
def Foreign (g : Grammar) (ch : Char) : Prop :=
  ∀ s ∈ g.states, ∀ e ∈ s.edges, ∀ set, g.charSet? e.charSet = some set → ch ∉ set

section
variable {g : Grammar} {ch : Char}

theorem admitsIff {e : Edge} :
    g.admits ch e = true ↔ ∃ set, g.charSet? e.charSet = some set ∧ ch ∈ set := by
  simp only [admits,Option.any_eq_true,CharSet.containsIff]

theorem foreignIff : g.Foreign ch ↔ ∀ s ∈ g.states, ∀ e ∈ s.edges, ¬ g.admits ch e = true := by
  simp only [Foreign,admitsIff,not_exists,not_and]

instance : Decidable (g.Foreign ch) := decidable_of_iff _ foreignIff.symm

theorem Foreign.next (foreign : g.Foreign ch) (state : Nat) : g.next? state ch = none := by
  cases found : g.state? state with
  | none => simp [next?,found]
  | some s =>
    have refused : s.edges.find? (g.admits ch) = none :=
      List.find?_eq_none.mpr (foreignIff.mp foreign s (Array.mem_of_getElem? found))
    simp [next?,found,refused]

theorem Foreign.step (foreign : g.Foreign ch) (w : Walk) :
    w.step g ch = {w with state := none} := by
  obtain ⟨state,length,best⟩ := w
  cases state with
  | none => rfl
  | some state => simp only [Walk.step,foreign.next state]

theorem Foreign.run (foreign : g.Foreign ch) (text : List Char) :
    (Walk.start g).run g (text ++ [ch]) = {(Walk.start g).run g text with state := none} := by
  rw [Walk.runAppend,← foreign.step,Walk.runEqFoldl g _ [ch]]
  rfl

theorem Foreign.cuts (foreign : g.Foreign ch) (text rest : List Char) :
    g.longest (text ++ ch::rest) = g.longest (text ++ [ch]) := by
  have stuck : ((Walk.start g).run g (text ++ [ch])).isStuck := by
    rw [foreign.run]
    rfl
  rw [List.append_cons,longestStuck stuck]

theorem longestForeign (foreign : g.Foreign ch) (rest : List Char) :
    g.longest (ch::rest) = .nothing := by
  have cut := foreign.cuts [] rest
  rw [List.nil_append,List.nil_append] at cut
  have walk := foreign.run []
  rw [List.nil_append] at walk
  rw [cut,longest,walk]
  rfl

theorem longestCut (foreign : g.Foreign ch) {text : List Char} (more : text ≠ [])
    (rest : List Char) : g.longest (text ++ ch::rest) = g.longest text := by
  rw [foreign.cuts,longest,longest,foreign.run]
  cases text with
  | nil => exact absurd rfl more
  | cons => rfl

theorem matchesFront {text : List Char} {n : Nat} {y : Symbol} (found : g.Matches text n y)
    (rest : List Char) : g.Matches (text ++ rest) n y := by
  refine ⟨found.positive,?_,?_⟩
  · rw [List.length_append]
    exact Nat.le_add_right_of_le found.within
  · rw [List.take_append_of_le_length found.within]
    exact found.spelled

/- What follows a match that is longest plays no part in it. -/
theorem longestFront {text rest : List Char} (more : text ≠ [])
    (within : ∀ m, g.longest (text ++ rest) = .found m → m.length ≤ text.length) :
    g.longest text = g.longest (text ++ rest) := by
  cases result : g.longest (text ++ rest) with
  | atEnd => exact absurd (List.append_eq_nil_iff.mp (longestAtEnd.mp result)).1 more
  | nothing =>
    refine longestNothing.mpr ⟨more,fun n y found => ?_⟩
    exact (longestNothing.mp result).2 n y (matchesFront found rest)
  | found m =>
    have inside := within m result
    have leading := longestFound.mp result
    have spelled := leading.found.spelled
    rw [List.take_append_of_le_length inside] at spelled
    exact longestFound.mpr ⟨⟨leading.found.positive,inside,spelled⟩,
      fun n y found => leading.longest n y (matchesFront found rest)⟩

end
end Grammar

namespace OpenComment

/- A line that ends within a text ends there whatever follows. -/
theorem lineLengthFront {text rest : List Char} (ends : lineLength (text ++ rest) < text.length)
    (other : List Char) : lineLength (text ++ other) = lineLength (text ++ rest) := by
  unfold lineLength at ends ⊢
  rw [List.takeWhile_append] at ends ⊢
  rw [List.takeWhile_append]
  split at ends
  · rw [List.length_append] at ends
    omega
  · rename_i short
    rw [if_neg short,if_neg short]

end OpenComment

section
variable {g : Grammar} {settings : Settings} {ch : Char} {front rest : List Char}

theorem takeFront {count : Nat} (short : count ≤ front.length) (other : List Char) :
    (front ++ other).take count = (front ++ rest).take count := by
  rw [List.take_append_of_le_length short,List.take_append_of_le_length short]

theorem lexemeMatch {text : List Char} {x : Lexeme} {m : Match}
    (here : lexeme g settings text = some x) (found : g.longest text = .found m) :
    m.length ≤ x.length := by
  unfold lexeme at here
  rw [found] at here
  dsimp only at here
  repeat' split at here
  all_goals cases here
  all_goals first | exact Nat.le_refl _ | exact Nat.le_add_right _ _

theorem lexemeForeign (foreign : g.Foreign ch) (rest : List Char) :
    lexeme g settings (ch::rest) = some ⟨.lexicalError,g.errorSymbol,[ch],1,false⟩ := by
  rw [lexeme,Grammar.longestForeign foreign]
  rfl

/- A lexeme in front of the character is found whatever follows it. A line comment has to end
earlier, for the character may be part of a line. -/
theorem lexemeCut (foreign : g.Foreign ch) {x : Lexeme}
    (here : lexeme g settings (front ++ rest) = some x) (within : x.length ≤ front.length)
    (block : x.message ≠ .commentBlockRead)
    (line : x.message = .commentLineRead → x.length < front.length) (behind : List Char) :
    lexeme g settings (front ++ ch::behind) = some x := by
  have positive := (lexemeExtent here).1
  have more : front ≠ [] := List.length_pos_iff.mp (Nat.lt_of_lt_of_le positive within)
  have same : g.longest (front ++ ch::behind) = g.longest (front ++ rest) :=
    (Grammar.longestCut foreign more behind).trans (Grammar.longestFront more
      fun m found => Nat.le_trans (lexemeMatch here found) within)
  unfold lexeme at here ⊢
  rw [same]
  cases result : g.longest (front ++ rest) with
  | atEnd => rw [result] at here; cases here
  | nothing =>
    rw [result] at here
    cases here
    dsimp only
    rw [takeFront within]
  | found m =>
    rw [result] at here
    dsimp only at here ⊢
    by_cases isLine : m.symbol.kind = .commentLineStart
    · rw [if_pos isLine] at here ⊢
      cases here
      have ends := line rfl
      dsimp only at ends
      have opened : m.length ≤ front.length := by omega
      rw [List.drop_append_of_le_length opened] at ends
      have early : OpenComment.lineLength (front.drop m.length ++ rest) <
          (front.drop m.length).length := by
        rw [List.length_drop]
        omega
      rw [List.drop_append_of_le_length opened,List.drop_append_of_le_length opened,
        OpenComment.lineLengthFront early,takeFront (Nat.le_of_lt early),takeFront opened]
    · rw [if_neg isLine] at here ⊢
      by_cases isBlock : m.symbol.kind = .commentBlockStart
      · rw [if_pos isBlock] at here
        cases here
        exact absurd rfl block
      · rw [if_neg isBlock] at here ⊢
        cases here
        rw [takeFront within]

end

namespace Cuts
variable {g : Grammar} {settings : Settings} {front rest : List Char} {lexemes : List Lexeme}

theorem filled {x : Lexeme} (cuts : Cuts g settings rest front (x::lexemes)) :
    0 < front.length := by
  cases cuts with
  | more here within => exact Nat.lt_of_lt_of_le (lexemeExtent here).1 within

theorem foreign {ch : Char} (foreign : g.Foreign ch) (cuts : Cuts g settings rest front lexemes)
    (noBlock : .commentBlockRead ∉ lexemes.map Lexeme.message)
    (noLine : (lexemes.map Lexeme.message).getLast? ≠ some .commentLineRead)
    (behind : List Char) : Cuts g settings (ch::behind) front lexemes := by
  induction cuts with
  | done => exact .done
  | @more front x lexemes here within further ih =>
    rw [List.map_cons,List.mem_cons,not_or] at noBlock
    have ends : x.message = .commentLineRead → x.length < front.length := by
      intro isLine
      cases lexemes with
      | nil => exact absurd (congrArg some isLine) noLine
      | cons y lexemes =>
        have left := further.filled
        rw [List.length_drop] at left
        omega
    refine .more (lexemeCut foreign here within (Ne.symm noBlock.1) ends behind) within ?_
    refine ih noBlock.2 fun last => noLine ?_
    rw [List.map_cons,List.getLast?_cons,last]
    rfl

end Cuts

theorem placedMessages (k : Cursor) (text : List Char) (lexemes : List Lexeme) :
    (placed k text lexemes).map Scan.message = lexemes.map Lexeme.message := by
  induction lexemes generalizing k text with
  | nil => rfl
  | cons x lexemes ih => exact congrArg (x.message::·) (ih _ _)

namespace Tokenizer

theorem foreignUndisturbed {g : Grammar} {ch : Char} (foreign : g.Foreign ch)
    (settings : Settings) {u v : String} {earlier later : List Scan} {first : Scan}
    (answers : (reading g settings (u ++ v)).Answers (earlier ++ first::later))
    (starts : first.token.position.index = u.length)
    (noBlock : .commentBlockRead ∉ earlier.map Scan.message)
    (noLine : (earlier.map Scan.message).getLast? ≠ some .commentLineRead) :
    (∀ scan ∈ earlier, scan.token.position.index < u.length) ∧
      ∃ shifted, (reading g settings (u ++ String.singleton ch ++ v)).Answers
          (earlier ++ ⟨.lexicalError,⟨g.errorSymbol,String.singleton ch,first.token.position⟩⟩::
            shifted) ∧
        List.Forall₂ (Scan.Alike fun before after => after.index = before.index+1)
          (first::later) shifted := by
  have whole := readingAnswers.mp answers
  rw [String.toList_append] at whole
  rw [← String.length_toList] at starts ⊢
  obtain ⟨lexemes,cuts,front,rest,place⟩ := Cuts.ofSplit whole starts
  rw [front,placedMessages] at noBlock noLine
  have text : (u ++ String.singleton ch ++ v).toList = u.toList ++ ch::v.toList := by simp
  have answered : transcript g settings .start (u.toList ++ ch::v.toList) =
      earlier ++ ⟨.lexicalError,⟨g.errorSymbol,String.singleton ch,first.token.position⟩⟩::
        transcript g settings ((Cursor.start.advanceAll u.toList).advance ch) v.toList := by
    rw [(cuts.foreign foreign noBlock noLine v.toList).splits,
      transcriptMore (lexemeForeign foreign v.toList),front,place,String.singleton_eq_ofList]
    rfl
  constructor
  · intro scan member
    rw [front] at member
    have near := cuts.placedBefore member
    rwa [show Cursor.start.position.index = 0 from rfl,Nat.zero_add] at near
  · refine ⟨_,readingAnswers.mpr (answered.symm.trans (congrArg _ text.symm)),?_⟩
    rw [rest]
    apply transcriptAlike
    intro run _
    rw [Cursor.advanceAllIndex,Cursor.advanceAllIndex,Cursor.advance,Position.advanceIndex]
    omega

/- A character put between a word and the marker that closes a comment. -/
theorem foreignUndisturbedSample : ∃ (g : Grammar) (earlier later : List Scan) (first : Scan),
    Draft.sample.compile = .ok g ∧ g.Foreign '?' ∧
      (reading g {} ("ab" ++ "*/")).Answers (earlier ++ first::later) ∧
      first.token.position.index = "ab".length ∧
      .commentBlockRead ∉ earlier.map Scan.message ∧
      (earlier.map Scan.message).getLast? ≠ some .commentLineRead ∧
      (∀ scan ∈ earlier, scan.token.position.index < "ab".length) ∧
      ∃ shifted, (reading g {} ("ab" ++ String.singleton '?' ++ "*/")).Answers
          (earlier ++ ⟨.lexicalError,⟨g.errorSymbol,String.singleton '?',first.token.position⟩⟩::
            shifted) ∧
        List.Forall₂ (Scan.Alike fun before after => after.index = before.index+1)
          (first::later) shifted := by
  obtain ⟨g,compiles⟩ := Draft.sampleCompiles
  have walked : ['a','b','*','/'].foldl (Walk.step g) (.start g) =
      ⟨none,2,some ⟨2,⟨2,"word",.terminal⟩,Nat.two_pos⟩⟩ :=
    Draft.ofCompile (f := fun g => ['a','b','*','/'].foldl (Walk.step g) (.start g)) compiles
      (by cbv)
  have word : lexeme g {} ['a','b','*','/'] =
      some ⟨.tokenRead,⟨2,"word",.terminal⟩,['a','b'],2,false⟩ := by
    rw [lexeme,Grammar.longest,Walk.runEqFoldl,walked]
    rfl
  obtain ⟨first,later,split,place,_⟩ :=
    transcriptFirst g {} (Cursor.start.advanceAll ['a','b']) ['*','/']
  have answers : (reading g {} ("ab" ++ "*/")).Answers ([_] ++ first::later) :=
    readingAnswers.mpr ((congrArg _ split).symm.trans (transcriptMore word).symm)
  have foreign : g.Foreign '?' := of_decide_eq_true
    (Draft.ofCompile (f := fun g => decide (g.Foreign '?')) compiles (by cbv))
  have starts : first.token.position.index = "ab".length := congrArg Position.index place
  have sample := foreignUndisturbed foreign {} answers starts (by decide) (by decide)
  exact ⟨g,_,later,first,compiles,foreign,answers,starts,by decide,by decide,sample⟩

end Tokenizer
end Munch
