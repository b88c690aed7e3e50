import Munch.Proofs.Delivery
import Munch.Proofs.LongestMatch

/-! Reading ahead makes no difference. An input is settled by reading ahead all that
its source will deliver, so that nothing is left to be asked. Every operation on an
input keeps the settled input, reports the failures of the source one by one, and
answers as it would on the settled input. -/
namespace Munch

/- How a result and the failures still to come share out the failures to come before:
a failed operation has met exactly one, one that succeeded has met none. -/
def Accounts {α : Type} (result : Except ReadError α) (before after : Delivery) : Prop :=
  match result with
  | .ok _ => before.failures = after.failures
  | .error e => before.failures = e::after.failures

namespace Input
variable {σ : Type}

def settle (i : Input σ) (d : Delivery) : Input TextSource :=
  ⟨⟨[]⟩,i.pending ++ d.characters,true⟩

theorem settleEnded (i : Input σ) (d : Delivery) : (i.settle d).ended = true := rfl

theorem settlePending (i : Input σ) (d : Delivery) :
    (i.settle d).pending = i.pending ++ d.characters := rfl

theorem settleDrop {i : Input σ} {count : Nat} (within : count ≤ i.pending.length) (d : Delivery) :
    (i.drop count).settle d = (i.settle d).drop count := by
  simp only [settle,drop,List.drop_append_of_le_length within]

variable [CharSource σ]

/- What the source of an input will still deliver; nothing after it has reported the end. -/
def Yields (i : Input σ) (d : Delivery) : Prop :=
  (i.ended = true ∧ d = []) ∨ (i.ended = false ∧ Delivers i.source d)

theorem peekEnded {i : Input σ} (ended : i.ended = true) : i.peek = (.ok i.pending.head?,i) := by
  unfold peek
  split
  · rename_i pending; rw [pending]; rfl
  · rename_i pending; rw [if_pos ended,pending]; rfl

theorem walkEnded (g : Grammar) {i : Input σ} (ended : i.ended = true) :
    i.walk g = (.ok ((Walk.start g).run g i.pending),i) := by
  simp [walk,ended]

theorem longestEnded (g : Grammar) {i : Input σ} (ended : i.ended = true) :
    i.longest g = (.ok (g.longest i.pending),i) := by
  simp only [longest,walkEnded g ended,Grammar.longest]

/- What an operation on an input comes to, whatever it answers. -/
structure Settled {α : Type} (i : Input σ) (d : Delivery) (result : Except ReadError α)
    (i' : Input σ) (d' : Delivery) : Prop where
  yields : i'.Yields d'
  same : i'.settle d' = i.settle d
  accounts : Accounts result d d'

theorem peekSettled {i : Input σ} {d : Delivery} (yields : i.Yields d) :
    ∃ d', Settled i d i.peek.1 i.peek.2 d' ∧
      ∀ answer, i.peek.1 = .ok answer → (i.settle d).peek = (.ok answer,i.settle d) := by
  rw [peekEnded (i.settleEnded d)]
  unfold peek
  split
  · rename_i ch rest pending
    refine ⟨d,⟨yields,rfl,rfl⟩,?_⟩
    intro answer h
    cases h
    simp [settle,pending]
  · rename_i pending
    rcases yields with ⟨ended,nothing⟩ | ⟨live,delivers⟩
    · rw [if_pos ended]
      refine ⟨[],⟨.inl ⟨ended,rfl⟩,by rw [nothing],by rw [nothing]; rfl⟩,?_⟩
      intro answer h
      cases h
      simp [settle,pending,nothing]
    · rw [if_neg (by simp [live])]
      split
      · rename_i ch source read
        obtain ⟨rest,rfl,tail⟩ := delivers.afterCharacter read
        refine ⟨rest,⟨.inr ⟨rfl,tail⟩,by simp [settle,pending],rfl⟩,?_⟩
        intro answer h
        cases h
        simp [settle,pending]
      · rename_i source read
        cases delivers.atEnd read
        refine ⟨[],⟨.inl ⟨rfl,rfl⟩,by simp [settle,pending],rfl⟩,?_⟩
        intro answer h
        cases h
        simp [settle,pending]
      · rename_i e source read
        obtain ⟨rest,rfl,tail⟩ := delivers.afterFailure read
        refine ⟨rest,⟨.inr ⟨rfl,tail⟩,by simp [settle,pending],rfl⟩,?_⟩
        intro answer h
        cases h

/- Reading on follows the walk over what it reads, until the walk is stuck or the
source has ended. -/
theorem readOnWalked {g : Grammar} {w w' : Walk} {source : σ} {taken : List Char}
    (walked : w = (Walk.start g).run g taken.reverse)
    (answers : (readOn g w source taken).1 = .ok w') :
    w' = (Walk.start g).run g (readOn g w source taken).2.pending ∧
      (w'.isStuck ∨ (readOn g w source taken).2.ended) := by
  fun_induction readOn g w source taken with
  | case1 w source taken stuck => cases answers; exact ⟨walked,.inl stuck⟩
  | case2 w source taken going ch source' read ih =>
    have further : w.step g ch = (Walk.start g).run g (ch::taken).reverse := by
      rw [List.reverse_cons,Walk.runAppend,← walked,Walk.runEqFoldl]
      rfl
    exact ih further answers
  | case3 w source taken going source' read => cases answers; exact ⟨walked,.inr rfl⟩
  | case4 => cases answers

theorem walkWalked {g : Grammar} {i : Input σ} {w : Walk} (answers : (i.walk g).1 = .ok w) :
    w = (Walk.start g).run g (i.walk g).2.pending ∧ (w.isStuck ∨ (i.walk g).2.ended) := by
  unfold walk at answers ⊢
  dsimp only at answers ⊢
  split at answers
  · rename_i enough
    rw [if_pos enough]
    cases answers
    exact ⟨rfl,by simpa using enough⟩
  · rename_i short
    rw [if_neg short]
    exact readOnWalked (by rw [List.reverse_reverse]) answers

/- What is found is the longest match in all that has been read ahead. -/
theorem longestHere {g : Grammar} {i i' : Input σ} {found : Longest}
    (longest : i.longest g = (.ok found,i')) : found = g.longest i'.pending := by
  unfold Input.longest at longest
  split at longest
  · rename_i w j walked
    have here := (walkWalked (g := g) (i := i) (w := w) (by rw [walked])).1
    rw [walked] at here
    cases longest
    rw [here]
    rfl
  · cases longest

theorem readOnSettled {g : Grammar} {w : Walk} {source : σ} {taken : List Char} {d : Delivery}
    (delivers : Delivers source d) :
    ∃ d', Settled ⟨source,taken.reverse,false⟩ d (readOn g w source taken).1
        (readOn g w source taken).2 d' := by
  fun_induction readOn g w source taken generalizing d with
  | case1 w source taken stuck => exact ⟨d,.inr ⟨rfl,delivers⟩,rfl,rfl⟩
  | case2 w source taken going ch source' read ih =>
    obtain ⟨rest,rfl,tail⟩ := delivers.afterCharacter read
    obtain ⟨d',settled⟩ := ih tail
    refine ⟨d',settled.yields,settled.same.trans ?_,settled.accounts⟩
    simp [settle]
  | case3 w source taken going source' read =>
    cases delivers.atEnd read
    exact ⟨[],.inl ⟨rfl,rfl⟩,rfl,rfl⟩
  | case4 w source taken going e source' read =>
    obtain ⟨rest,rfl,tail⟩ := delivers.afterFailure read
    exact ⟨rest,.inr ⟨rfl,tail⟩,rfl,rfl⟩

theorem walkSettled {g : Grammar} {i : Input σ} {d : Delivery} (yields : i.Yields d) :
    ∃ d', Settled i d (i.walk g).1 (i.walk g).2 d' := by
  unfold walk
  dsimp only
  split
  · exact ⟨d,yields,rfl,rfl⟩
  · rename_i short
    rcases yields with ⟨ended,_⟩ | ⟨live,delivers⟩
    · simp [ended] at short
    · have same : (⟨i.source,i.pending.reverse.reverse,false⟩ : Input σ) = i := by
        rw [List.reverse_reverse,← live]
      obtain ⟨d',settled⟩ := readOnSettled (w := (Walk.start g).run g i.pending) delivers
      rw [same] at settled
      exact ⟨d',settled⟩

theorem longestSettled {g : Grammar} {i : Input σ} {d : Delivery} (yields : i.Yields d) :
    ∃ d', Settled i d (i.longest g).1 (i.longest g).2 d' ∧
      ∀ found, (i.longest g).1 = .ok found →
        found = g.longest (i.longest g).2.pending ∧
        (i.settle d).longest g = (.ok found,i.settle d) ∧ (found = .atEnd → d' = []) := by
  obtain ⟨d',settled⟩ := walkSettled (g := g) yields
  have answers (w : Walk) := walkWalked (g := g) (i := i) (w := w)
  rw [longestEnded g (i.settleEnded d),longest]
  split
  · rename_i w i' walked
    rw [walked] at settled answers
    refine ⟨d',⟨settled.yields,settled.same,settled.accounts⟩,?_⟩
    intro found h
    cases h
    obtain ⟨same,enough⟩ := answers w rfl
    dsimp only at same enough
    have here : Longest.ofWalk w i'.pending = g.longest i'.pending := by rw [same]; rfl
    rw [here,← settled.same,settlePending]
    rcases enough with stuck | ended
    · rw [same] at stuck
      rw [Grammar.longestStuck stuck]
      refine ⟨rfl,rfl,fun empty => ?_⟩
      rw [Grammar.longestAtEnd.mp empty] at stuck
      cases stuck
    · rcases settled.yields with ⟨_,nothing⟩ | ⟨live,_⟩
      · rw [nothing,Delivery.charactersNil,List.append_nil]
        exact ⟨rfl,rfl,fun _ => rfl⟩
      · rw [ended] at live; cases live
  · rename_i e i' walked
    rw [walked] at settled
    refine ⟨d',⟨settled.yields,settled.same,settled.accounts⟩,?_⟩
    intro found h
    cases h

end Input
end Munch
