import Munch.Proofs.Transcript
import Munch.Proofs.Wiring

/-! Maximal munch. Of the prefixes of a text that a draft matches there is one longest,
and it is matched with one symbol only. Main statement: over a text, every call of a
tokenizer answers with the longest prefix that the draft of its grammar matches where
the call begins, with the error symbol where there is none, and with the end where no
text is left. -/
namespace Munch

namespace Draft

structure Longest (d : Draft) (text : List Char) (length : Nat) (symbol : Symbol) : Prop where
  found : d.Matches text length symbol
  sole : ∀ n y, d.Matches text n y → n < length ∨ n = length ∧ y = symbol

/- What a call answers at the front of a text, with the number of characters it takes. -/
inductive Munched (d : Draft) (errorSymbol : Symbol) (text : List Char) : Scan → Nat → Prop where
  | nothing {ch rest start} (begins : text = ch::rest) (unmatched : ∀ n y, ¬ d.Matches text n y) :
      Munched d errorSymbol text ⟨.lexicalError,⟨errorSymbol,String.singleton ch,start⟩⟩ 1
  | token {n y start} (longest : d.Longest text n y)
      (kind : y.kind = .terminal ∨ y.kind = .whiteSpace ∨ y.kind = .commentBlockEnd) :
      Munched d errorSymbol text ⟨.tokenRead,⟨y,String.ofList (text.take n),start⟩⟩ n
  | commentLine {n y shown start} (longest : d.Longest text n y) (kind : y.kind = .commentLineStart) :
      Munched d errorSymbol text ⟨.commentLineRead,⟨y,shown,start⟩⟩
        (n+((text.drop n).takeWhile fun ch => ch ≠ '\r' ∧ ch ≠ '\n').length)
  | commentBlock {n y shown start count} (longest : d.Longest text n y)
      (kind : y.kind = .commentBlockStart) (begins : n ≤ count) (within : count ≤ text.length) :
      Munched d errorSymbol text ⟨.commentBlockRead,⟨y,shown,start⟩⟩ count

namespace Compiled
variable {d : Draft} {g : Grammar} (c : Compiled d g) {settings : Settings} {text : List Char}
include c

theorem longest {m : Match} (found : g.longest text = .found m) :
    d.Longest text m.length m.symbol := by
  have leading := Grammar.longestFound.mp found
  have sole : ∀ n y, d.Matches text n y → n < m.length ∨ n = m.length ∧ y = m.symbol := by
    intro n y matched
    have other := c.matchesIff.mpr matched
    rcases Nat.lt_or_eq_of_le (leading.longest n y other) with shorter | same
    · exact .inl shorter
    · subst same
      exact .inr ⟨rfl,Grammar.matchesUnique other leading.found⟩
  exact ⟨c.matchesIff.mp leading.found,sole⟩

theorem kindLexical {n : Nat} {y : Symbol} (found : d.Matches text n y) : y.kind.isLexical = true := by
  obtain ⟨state,_,declares⟩ := found.spelled
  exact c.lexical declares

theorem munched {x : Lexeme} (here : lexeme g settings text = some x) (start : Position) :
    d.Munched g.errorSymbol text (x.scan start) x.length := by
  have within := (lexemeExtent here).2
  unfold lexeme at here
  split at here
  · cases here
  · rename_i nothing
    obtain ⟨some,unmatched⟩ := Grammar.longestNothing.mp nothing
    cases here
    cases text with
    | nil => exact absurd rfl some
    | cons ch rest =>
      rw [Lexeme.scan,List.take_succ_cons,List.take_zero,← String.singleton_eq_ofList]
      exact .nothing rfl fun n y other => unmatched n y (c.matchesIff.mpr other)
  · rename_i m found
    have longest := c.longest found
    dsimp only at here
    split at here
    · rename_i isLine
      cases here
      have length : OpenComment.lineLength (text.drop m.length) =
          ((text.drop m.length).takeWhile fun ch => ch ≠ '\r' ∧ ch ≠ '\n').length := by
        simp only [OpenComment.lineLength,OpenComment.endsLine,Bool.not_or,Bool.decide_and,ne_eq,
          decide_not]
      rw [length]
      exact .commentLine longest isLine
    · rename_i notLine
      split at here
      · rename_i isBlock
        cases here
        exact .commentBlock longest isBlock (Nat.le_add_right _ _) within
      · rename_i notBlock
        cases here
        apply Munched.token longest
        have lexical := c.kindLexical longest.found
        cases kind : m.symbol.kind with
        | terminal => exact .inl rfl
        | whiteSpace => exact .inr (.inl rfl)
        | commentBlockEnd => exact .inr (.inr rfl)
        | commentLineStart => exact absurd kind notLine
        | commentBlockStart => exact absurd kind notBlock
        | nonterminal => rw [kind] at lexical; cases lexical
        | error => rw [kind] at lexical; cases lexical
        | endOfInput => rw [kind] at lexical; cases lexical

end Compiled
end Draft

namespace Tokenizer

theorem readingMunches {d : Draft} {g : Grammar} (compiles : d.compile = .ok g)
    (settings : Settings) (text : String) :
    ∃ turns, Run (reading g settings text) turns ∧
      ∀ turn ∈ turns, ∃ scan, turn.result = .ok scan ∧
        (scan.message = .endOfInput ∧ text.toList.drop scan.token.position.index = [] ∨
          ∃ count, d.Munched g.errorSymbol (text.toList.drop scan.token.position.index) scan count ∧
            turn.tokenizer.position.index = scan.token.position.index+count) := by
  obtain ⟨turns,run⟩ := readingRun g settings text
  refine ⟨turns,run,?_⟩
  intro turn member
  obtain ⟨i,found⟩ := List.getElem?_of_mem member
  obtain ⟨u,offset,stands,called,_⟩ := readingTurn run found
  subst called
  cases here : lexeme g settings (text.toList.drop offset) with
  | none =>
    have nothing := lexemeNone.mp here
    have done := Nat.le_antisymm stands.within (List.drop_eq_nil_iff.mp nothing)
    refine ⟨_,(stands.atEnd done).1,.inl ⟨rfl,?_⟩⟩
    rw [show (⟨g.endSymbol,"",u.position⟩ : Token).position.index = offset from stands.index]
    exact nothing
  | some x =>
    obtain ⟨result,_,further⟩ := stands.takes here
    refine ⟨_,result,.inr ⟨x.length,?_,?_⟩⟩
    · rw [show (x.scan u.position).token.position.index = offset from stands.index]
      exact (Draft.compiled compiles).munched here u.position
    · rw [further.index]
      exact congrArg (· + x.length) stands.index.symm

/- A word, the beginning of a marker, a word and a comment. -/
theorem readingMunchesSample : ∃ g turns, Draft.sample.compile = .ok g ∧
    Run (reading g {} "ab*a/*b*/") turns ∧
    turns.map Turn.result = [
      .ok ⟨.tokenRead,⟨⟨2,"word",.terminal⟩,"ab",⟨0,1,1⟩⟩⟩,
      .ok ⟨.lexicalError,⟨⟨1,"Error",.error⟩,"*",⟨2,1,3⟩⟩⟩,
      .ok ⟨.tokenRead,⟨⟨2,"word",.terminal⟩,"a",⟨3,1,4⟩⟩⟩,
      .ok ⟨.commentBlockRead,⟨⟨3,"open",.commentBlockStart⟩,"/*b*/",⟨4,1,5⟩⟩⟩,
      .ok ⟨.endOfInput,⟨⟨0,"End",.endOfInput⟩,"",⟨9,1,10⟩⟩⟩] ∧
    ∀ turn ∈ turns, ∃ scan, turn.result = .ok scan ∧
      (scan.message = .endOfInput ∧ "ab*a/*b*/".toList.drop scan.token.position.index = [] ∨
        ∃ count, Draft.sample.Munched g.errorSymbol
            ("ab*a/*b*/".toList.drop scan.token.position.index) scan count ∧
          turn.tokenizer.position.index = scan.token.position.index+count) := by
  obtain ⟨g,compiles⟩ := Draft.sampleCompiles
  obtain ⟨turns,run,munches⟩ := readingMunches compiles {} "ab*a/*b*/"
  refine ⟨g,turns,compiles,run,?_,munches⟩
  have first : lexeme g {} "ab*a/*b*/".toList =
      some ⟨.tokenRead,⟨2,"word",.terminal⟩,['a','b'],2,false⟩ :=
    Draft.ofCompile (f := fun g => lexeme g {} "ab*a/*b*/".toList) compiles (by cbv)
  have second : lexeme g {} "*a/*b*/".toList =
      some ⟨.lexicalError,⟨1,"Error",.error⟩,['*'],1,false⟩ :=
    Draft.ofCompile (f := fun g => lexeme g {} "*a/*b*/".toList) compiles (by cbv)
  have third : lexeme g {} "a/*b*/".toList =
      some ⟨.tokenRead,⟨2,"word",.terminal⟩,['a'],1,false⟩ :=
    Draft.ofCompile (f := fun g => lexeme g {} "a/*b*/".toList) compiles (by cbv)
  have opens : g.longest "/*b*/".toList = .found ⟨2,⟨3,"open",.commentBlockStart⟩,Nat.two_pos⟩ :=
    Draft.ofCompile (f := fun g => g.longest "/*b*/".toList) compiles (by cbv)
  have body : OpenComment.bodyIn g false 4 1 "b*/".toList = ⟨1,some 2⟩ :=
    Draft.ofCompile (f := fun g => OpenComment.bodyIn g false 4 1 "b*/".toList) compiles (by cbv)
  have cuts : Cuts g {} [] "ab*a/*b*/".toList [_,_,_,_] :=
    .more first (by decide) (.more second (by decide) (.more third (by decide)
      (.more (lexemeOfBlock opens rfl (by decide) body) (by decide) .done)))
  rw [readingTranscribed run,cuts.whole,Draft.sampleEnd compiles]
  rfl

end Tokenizer
end Munch
