import Munch.Source
import Munch.Tokenizer

/-! Draining a tokenizer: all answers up to the end or the first failure. Main
statement: every answer that leaves more to be drained lowers `work`, so draining
finishes and `work` bounds the number of answers. -/
namespace Munch

namespace Tokenizer
variable {σ : Type} [CharSource σ]

/-- What is left to be scanned: characters, and a comment to be finished. -/
def weight (t : Tokenizer σ) : Nat := t.head.bound+t.openComment.isSome.toNat

def work (t : Tokenizer σ) : Nat := if t.isDone then 0 else 1+t.weight

theorem finishCommentWeight {t : Tokenizer σ} {c : OpenComment} {answer : Scan}
    (h : (t.finishComment c).result = .ok answer) :
    (t.finishComment c).tokenizer.weight ≤ t.head.bound := by
  have line := OpenComment.finishLineBound t.head c
  have block := OpenComment.finishBlockBound t.grammar t.settings t.head c
  unfold finishComment at h ⊢
  split at h
  · rename_i isLine
    rw [if_pos isLine]
    split at h
    · cases h
    · rename_i ran; rw [ran] at line; simpa [ran,delivered,weight] using line
  · rename_i isBlock
    rw [if_neg isBlock]
    split at h
    · cases h
    · rename_i ran; rw [ran] at block; simpa [ran,delivered,weight] using block

theorem acceptWeight {t : Tokenizer σ} {found : Longest} {answer : Scan}
    (none : t.openComment = none) (more : found ≠ .atEnd → t.head.input.pending ≠ [])
    (h : (t.accept found).result = .ok answer) :
    (t.accept found).tokenizer.exhausted = true ∨ (t.accept found).tokenizer.weight < t.weight := by
  cases found with
  | atEnd => exact .inl rfl
  | nothing =>
    have := Head.consumeBound (more (by simp)) Nat.one_pos
    exact .inr (by simpa [accept,delivered,weight,none] using this)
  | found m =>
    have less := Head.consumeBound (more (by simp)) m.positive
    right
    unfold accept at h ⊢
    dsimp only at h ⊢
    split at h
    · rename_i opens
      rw [if_pos opens]
      refine Nat.lt_of_le_of_lt (finishCommentWeight h) (Nat.lt_of_lt_of_le less ?_)
      simp [weight]
    · rename_i plain
      rw [if_neg plain]
      simpa [delivered,weight,none] using less

theorem nextWeight {t : Tokenizer σ} {answer : Scan} (h : t.next.result = .ok answer) :
    t.next.tokenizer.exhausted = true ∨ t.next.tokenizer.weight < t.weight := by
  unfold next at h ⊢
  split at h
  · rename_i c opened
    refine .inr (Nat.lt_of_le_of_lt (finishCommentWeight h) ?_)
    simp [weight,opened]
  · rename_i closed
    split at h
    · rename_i done
      rw [if_pos done]; exact .inl rfl
    · rename_i live
      rw [if_neg live]
      have le := Input.longestBound t.grammar t.head.input
      split at h
      · cases h
      · rename_i found input longest
        rw [longest] at le
        dsimp only at le
        dsimp only
        rcases acceptWeight (t := {t with head := {t.head with input}}) closed
          (Input.longestPending longest) h with done | less
        · exact .inl done
        · refine .inr (Nat.lt_of_lt_of_le less ?_)
          simpa [weight,closed,Head.bound] using le

theorem iterateWork {t : Tokenizer σ} {turn : Turn σ} (h : t.iterate = some turn) :
    turn.tokenizer.work < t.work := by
  unfold iterate at h
  split at h
  · cases h
  · rename_i live
    cases Option.some.inj h
    have whole : t.work = 1+t.weight := if_neg live
    rw [whole]
    cases result : t.next.result with
    | error e =>
      have stopped (u : Tokenizer σ) :
          {u with failed := !(Except.isOk (.error e : Except Error Scan))}.work = 0 := by
        simp [work,isDone,Except.isOk,Except.toBool]
      rw [stopped]; omega
    | ok answer =>
      have less := nextWeight result
      unfold work
      split
      · omega
      · rename_i going
        rcases less with done | less
        · simp [isDone,done] at going
        · simpa [weight] using less

structure Drained (σ : Type) where
  results : List (Except Error Scan)
  events : List Event
  tokenizer : Tokenizer σ

def drain (t : Tokenizer σ) : Drained σ :=
  match _turn : t.iterate with
  | none => ⟨[],[],t⟩
  | some turn =>
    let rest := drain turn.tokenizer
    ⟨turn.result::rest.results,turn.events ++ rest.events,rest.tokenizer⟩
termination_by t.work
decreasing_by exact iterateWork _turn

end Tokenizer

def tokenize (g : Grammar) (text : String) : Except Error (List Scan) :=
  (Tokenizer.ofSource g (TextSource.ofString text)).drain.results.mapM id

end Munch
