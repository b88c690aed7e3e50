import Munch.Proofs.Reading

/-! A tokenizer in a text whose source may fail. Called again after each failure, it goes
on from the same place, in the middle of a comment if need be, until it answers. Main
statement: it answers and logs what a tokenizer does that stands at that place with
everything read ahead. -/
namespace Munch

namespace Tokenizer
variable {σ : Type} [CharSource σ]

/- A tokenizer that, retried until it answers, answers as one that stands in a text. -/
structure Awaits (t : Tokenizer σ) (g : Grammar) (settings : Settings) (text : List Char)
    (offset : Nat) : Prop where
  live : t.exhausted = false
  stands : ∃ d, t.Yields d ∧ ∃ s : Tokenizer TextSource, s.Stands g settings text offset ∧
    (t.settle d).next = s.next

theorem ofSourceAwaits {source : σ} {d : Delivery} (delivers : Delivers source d) (g : Grammar)
    (settings : Settings) :
    ((ofSource g source).configure settings).Awaits g settings d.characters 0 where
  live := rfl
  stands := ⟨d,ofSourceYields g settings delivers,_,settledStands g settings source d,rfl⟩

namespace Awaits
variable {t : Tokenizer σ} {g : Grammar} {settings : Settings} {text : List Char} {offset : Nat}

theorem within (h : t.Awaits g settings text offset) : offset ≤ text.length := by
  obtain ⟨_,_,_,stands,_⟩ := h.stands
  exact stands.within

theorem interrupted (h : t.Awaits g settings text offset) {error : Error}
    (failed : t.next.result = .error error) :
    t.next.events = [] ∧ t.next.tokenizer.Awaits g settings text offset := by
  obtain ⟨d,yields,s,stands,same⟩ := h.stands
  obtain ⟨d',resumes⟩ := nextResumes yields
  obtain ⟨quiet,_,again⟩ := resumes.interrupted error failed
  exact ⟨quiet,nextLive h.live (Turn.notEndOf failed),d',resumes.yields,s,stands,again.trans same⟩

theorem answered (h : t.Awaits g settings text offset) {scan : Scan}
    (answers : t.next.result = .ok scan) :
    match lexeme g settings (text.drop offset) with
      | none => scan.message = .endOfInput ∧ t.next.events = [.sourceExhausted offset]
      | some x => ∃ place, place.index = offset ∧ scan = x.scan place ∧
          t.next.events = x.events place ∧
          t.next.tokenizer.Awaits g settings text (offset+x.length) := by
  obtain ⟨d,yields,s,stands,same⟩ := h.stands
  obtain ⟨d',resumes⟩ := nextResumes yields
  have settled := (resumes.answered scan answers).2
  rw [same] at settled
  have result : s.next.result = .ok scan := congrArg Turn.result settled
  have events : s.next.events = t.next.events := congrArg Turn.events settled
  cases here : lexeme g settings (text.drop offset) with
  | none =>
    have done := Nat.le_antisymm h.within (List.drop_eq_nil_iff.mp (lexemeNone.mp here))
    cases (stands.atEnd done).1.symm.trans result
    exact ⟨rfl,events.symm.trans (stands.exhausts done)⟩
  | some x =>
    obtain ⟨taken,logged,further⟩ := stands.takes here
    cases taken.symm.trans result
    rw [settled] at further
    have going : ¬ t.next.IsEnd := Turn.goingOf answers (lexemeMessage here)
    exact ⟨s.position,stands.index,rfl,events.symm.trans logged,nextLive h.live going,d',
      resumes.yields,_,further,rfl⟩

end Awaits

def calls (t : Tokenizer σ) : Nat → List (Turn σ)
  | 0 => []
  | n+1 => t.next :: t.next.tokenizer.calls n

end Tokenizer

theorem Run.called {σ : Type} [CharSource σ] {t : Tokenizer σ} {turns : List (Turn σ)}
    (run : Run t turns) :
    t.calls turns.length = turns := by
  induction run with
  | last isEnd => rfl
  | more going rest ih => exact congrArg (List.cons _) ih

end Munch
