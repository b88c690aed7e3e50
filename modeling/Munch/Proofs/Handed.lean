import Munch.Proofs.EndOfInput
import Munch.Proofs.Places

/-! What a source has handed out. It is what the tokenizer has consumed, followed by what
it has read ahead; the place it stands at is the one that what it has consumed leads to,
and it takes the end for reported exactly when it has been. Main statements: this holds
whatever is done with a tokenizer and whatever its source answers, and what a source has
left is what has not been handed out. -/
namespace Munch
variable {σ : Type} [CharSource σ]

/- What a source has still to hand out, as it can be told from the source. -/
def Views (left : σ → List Char) : Prop := ∀ s, match CharSource.read s with
  | (.ok (some ch),s') => left s = ch::left s'
  | (.ok none,s') => left s = [] ∧ left s' = []
  | (.error _,s') => left s = left s'

theorem TextSource.views : Views TextSource.remaining := by
  intro s
  obtain ⟨_ | _⟩ := s
  · exact ⟨rfl,rfl⟩
  · rfl

namespace Recorded

def character? : Answer → Option Char
  | .ok ch => ch
  | .error _ => none

omit [CharSource σ] in
def handed (r : Recorded σ) : List Char := r.answers.filterMap character?

theorem unrecorded {r : Recorded σ} {d : Delivery} (delivers : Delivers r d) :
    Delivers r.source d := by
  induction delivers with
  | finished read => exact .finished (readAfter read).1
  | character read tail ih => exact .character (readAfter read).1 ih
  | failure read tail ih => exact .failure (readAfter read).1 ih

end Recorded

namespace Head

/- All that the source has handed out has been consumed or is read ahead. -/
structure Accounted (h : Head (Recorded σ)) : Prop where
  told : .ok none ∈ h.input.source.answers ↔ h.input.ended = true
  kept : ∃ run, h.input.source.handed = run ++ h.input.pending ∧
    h.cursor = Cursor.start.advanceAll run

namespace Accounted
variable {h h' : Head (Recorded σ)}

omit [CharSource σ] in
theorem length (accounted : h.Accounted) :
    h.input.source.handed.length = h.position.index+h.input.pending.length := by
  obtain ⟨run,handed,cursor⟩ := accounted.kept
  rw [handed,List.length_append,position,cursor,Cursor.advanceAllIndex]
  exact congrArg (·+_) (Nat.zero_add _).symm

theorem move (accounted : h.Accounted) (move : h.Move h') : h'.Accounted := by
  obtain ⟨told,run,handed,cursor⟩ := accounted
  cases move with
  | character read =>
    have record := (Recorded.readAfter read).2
    refine ⟨?_,run,?_,cursor⟩
    · simpa [record] using told
    · simp only [Recorded.handed,record,List.filterMap_append] at handed ⊢
      rw [handed,List.append_assoc]
      rfl
  | finished read =>
    have record := (Recorded.readAfter read).2
    refine ⟨by simp [record],run,?_,cursor⟩
    simp only [Recorded.handed,record,List.filterMap_append] at handed ⊢
    exact (List.append_nil _).trans handed
  | failure read =>
    have record := (Recorded.readAfter read).2
    refine ⟨?_,run,?_,cursor⟩
    · simpa [record] using told
    · simp only [Recorded.handed,record,List.filterMap_append] at handed ⊢
      exact (List.append_nil _).trans handed
  | consume h count =>
    refine ⟨told,run ++ h.ahead count,?_,?_⟩
    · refine handed.trans ?_
      rw [List.append_assoc]
      exact congrArg _ (List.take_append_drop _ _).symm
    · simp only [consume,cursor,Cursor.advanceAllAppend]

theorem moves (accounted : h.Accounted) (moves : h.Moves h') : h'.Accounted := by
  induction moves with
  | refl => exact accounted
  | tail _ last ih => exact ih.move last

end Accounted

/- What is handed out is taken from what the source had left. -/
theorem movesLeft {left : σ → List Char} (views : Views left) {h h' : Head (Recorded σ)}
    (moves : h.Moves h') : h'.input.source.handed ++ left h'.input.source.source =
      h.input.source.handed ++ left h.input.source.source := by
  induction moves with
  | refl => rfl
  | tail _ last ih =>
    refine Eq.trans ?_ ih
    cases last with
    | consume => rfl
    | @character s s' _ _ _ read | @finished s s' _ _ read | @failure s s' _ _ _ read =>
      obtain ⟨answered,record⟩ := Recorded.readAfter read
      have view := views s.source
      rw [answered] at view
      simp [Recorded.handed,record,Recorded.character?,view]

end Head

namespace Tokenizer

/- A tokenizer after some operations. -/
def after (t : Tokenizer σ) (ops : List Operation) : Tokenizer σ :=
  ops.foldl (fun u op => (u.perform op).tokenizer) t

theorem afterAppend (t : Tokenizer σ) (ops more : List Operation) :
    t.after (ops ++ more) = (t.after ops).after more := List.foldl_append

theorem afterInvariant {Inv : Tokenizer σ → Prop} {t : Tokenizer σ} (start : Inv t)
    (keeps : ∀ u op, Inv u → Inv (u.perform op).tokenizer) (ops : List Operation) :
    Inv (t.after ops) := by
  induction ops generalizing t with
  | nil => exact start
  | cons op ops ih => exact ih (keeps t op start)

def tracked (g : Grammar) (settings : Settings) (source : σ) : Tokenizer (Recorded σ) :=
  (ofSource g (Recorded.mk source [])).configure settings

theorem afterMoves (t : Tokenizer σ) (ops : List Operation) : t.head.Moves (t.after ops).head :=
  @afterInvariant _ _ (fun u => t.head.Moves u.head) t .refl
    (fun u op moves => moves.trans (u.performMoves op)) ops

theorem trackedAccounted (g : Grammar) (settings : Settings) (source : σ) (ops : List Operation) :
    ((tracked g settings source).after ops).head.Accounted :=
  .moves ⟨by simp [tracked,ofSource,configure],[],rfl,rfl⟩ (afterMoves _ ops)

end Tokenizer
end Munch
