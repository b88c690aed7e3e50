import Munch.Proofs.Extension
import Munch.Proofs.Reading

/-! Text that is appended. A text with more behind it answers whatever the text alone does,
except the end, so that it makes no difference to a call, unless the call has been told
the end. Main statement: what a tokenizer has answered over a text, before its source has
reported the end, is answered also when more follows the text. -/
namespace Munch
variable {σ τ : Type} [CharSource σ] [CharSource τ]

theorem Head.movesLive {h h' : Head σ} (moves : h.Moves h') (live : h'.input.ended = false) :
    h.input.ended = false := by
  cases ended : h.input.ended with
  | false => rfl
  | true => rw [(movesEnded ended moves).1] at live; cases live

/- What a caller sees of a turn. -/
def Turn.seen {σ : Type} (turn : Turn σ) : Except Error Scan × Position :=
  (turn.result,turn.tokenizer.position)

namespace Run

theorem moves {t : Tokenizer σ} {turns : List (Turn σ)} (run : Run t turns) {turn : Turn σ}
    (member : turn ∈ turns) : t.head.Moves turn.tokenizer.head := by
  induction run with
  | last =>
    cases List.mem_singleton.mp member
    exact (Tokenizer.nextCalls _).moves
  | more going rest ih =>
    rcases List.mem_cons.mp member with rfl | later
    · exact (Tokenizer.nextCalls _).moves
    · exact (Tokenizer.nextCalls _).moves.trans (ih later)

theorem alike {live spent : σ → τ → Prop} (simulates : Simulates live spent) {t : Tokenizer σ}
    {turns : List (Turn σ)} (run : Run t turns) {u : Tokenizer τ}
    (alike : t.Alike live spent u) : ∃ others, Run u others ∧
      others.map Turn.seen = turns.map Turn.seen := by
  have same {a : Turn σ} {b : Turn τ} (turns : a.Alike live spent b) : b.seen = a.seen :=
    Prod.ext turns.result.symm turns.tokenizer.position.symm
  induction run generalizing u with
  | last isEnd =>
    have next := Tokenizer.nextAlike simulates alike
    exact ⟨_,.last (isEnd.of next.result),congrArg (fun seen => [seen]) (same next)⟩
  | more going rest ih =>
    have next := Tokenizer.nextAlike simulates alike
    obtain ⟨others,run,seen⟩ := ih next.tokenizer
    refine ⟨_,.more (fun isEnd => going (isEnd.of next.result.symm)) run,?_⟩
    rw [List.map_cons,List.map_cons,same next,seen]

theorem appended {f : σ → τ} (larger : Extends f fun ended _ => ended = false) {t : Tokenizer σ} {turns : List (Turn σ)}
    {others : List (Turn τ)} (run : Run t turns) (run' : Run (t.map f) others) {i : Nat}
    {turn : Turn σ} (found : turns[i]? = some turn)
    (live : turn.tokenizer.head.input.ended = false) :
    (others.take (i+1)).map Turn.seen = (turns.take (i+1)).map Turn.seen := by
  induction run generalizing others i with
  | @last t isEnd =>
    cases i with
    | succ i => simp at found
    | zero =>
      cases found
      have same := Tokenizer.nextExtends larger live
      obtain ⟨tail,rfl⟩ := run'.first
      rw [same]
      rfl
  | @more t turns going rest ih =>
    have before : t.next.tokenizer.head.input.ended = false := by
      cases i with
      | zero => cases found; exact live
      | succ i => exact Head.movesLive (rest.moves (List.mem_of_getElem? found)) live
    have same := Tokenizer.nextExtends larger before
    cases run' with
    | last isEnd => rw [same] at isEnd; exact absurd isEnd going
    | more _ rest' =>
      rw [same] at rest' ⊢
      cases i with
      | zero => rfl
      | succ i => exact congrArg (List.cons t.next.seen) (ih rest' found)

end Run

namespace Recorded

theorem delivers {s : σ} {d : Delivery} (delivers : Delivers s d) (answers : List Answer) :
    Delivers (Recorded.mk s answers) d := by
  have recorded {s s' : σ} {answer : Answer} {answers : List Answer}
      (shown : CharSource.read s = (answer,s')) :
      CharSource.read (Recorded.mk s answers) = (answer,Recorded.mk s' (answers ++ [answer])) := by
    change read _ = _
    rw [read,shown]
  induction delivers generalizing answers with
  | finished shown => exact .finished (recorded shown)
  | character shown tail ih => exact .character (recorded shown) (ih _)
  | failure shown tail ih => exact .failure (recorded shown) (ih _)

/- The text that is read, and more behind it. -/
def append (v : List Char) (r : Recorded TextSource) : TextSource := ⟨r.source.remaining ++ v⟩

theorem appendExtends (v : List Char) : Extends (append v) fun ended _ => ended = false where
  character {r ch r'} shown _ := by
    obtain ⟨⟨remaining⟩,answers⟩ := r
    cases remaining with
    | nil => cases shown
    | cons ch rest => cases shown; exact ⟨rfl,rfl⟩
  finished _ ended := by cases ended
  failure {r e r'} shown _ := by
    obtain ⟨⟨remaining⟩,answers⟩ := r
    cases remaining <;> cases shown

/- A tokenizer that takes the end for reported has been told so. -/
theorem told {h h' : Head (Recorded σ)} (moves : h.Moves h')
    (told : h.input.ended = true → .ok none ∈ h.input.source.answers)
    (ended : h'.input.ended = true) : .ok none ∈ h'.input.source.answers := by
  induction moves with
  | refl => exact told ended
  | tail _ move ih =>
    cases move with
    | character => cases ended
    | failure => cases ended
    | consume => exact ih ended
    | finished shown =>
      obtain ⟨answer,rfl⟩ := Prod.mk.inj shown
      exact List.mem_append_right _ (List.mem_singleton.mpr answer.symm)

end Recorded

namespace Tokenizer

def recording (g : Grammar) (settings : Settings) (text : String) :
    Tokenizer (Recorded TextSource) :=
  (ofSource g (Recorded.mk (TextSource.ofString text) [])).configure settings

theorem appendedStable (g : Grammar) (settings : Settings) (u v : String) :
    ∃ turns recorded others, Run (reading g settings u) turns ∧
      Run (recording g settings u) recorded ∧ recorded.map Turn.seen = turns.map Turn.seen ∧
      Run (reading g settings (u ++ v)) others ∧
      (∀ (i : Nat) turn, recorded[i]? = some turn → .ok none ∉ turn.tokenizer.close.answers →
        (others.take (i+1)).map Turn.seen = (turns.take (i+1)).map Turn.seen) ∧
      ∀ (i : Nat) turn, recorded[i]? = some turn →
        others[i]?.map Turn.result ≠ turns[i]?.map Turn.result →
          .ok none ∈ turn.tokenizer.close.answers := by
  obtain ⟨recorded,run,_⟩ :=
    ofSourceRun g settings (Recorded.delivers (TextSource.delivers u.toList) [])
  obtain ⟨turns,plain,same⟩ := run.alike Recorded.simulates (recordedAlike g settings _)
  obtain ⟨others,run'⟩ := readingRun g settings (u ++ v)
  have appended : Run ((recording g settings u).map (Recorded.append v.toList)) others := by
    rw [reading,TextSource.ofString,String.toList_append] at run'
    exact run'
  have stable (i : Nat) (turn : Turn (Recorded TextSource)) (found : recorded[i]? = some turn)
      (untold : .ok none ∉ turn.tokenizer.close.answers) :
      (others.take (i+1)).map Turn.seen = (turns.take (i+1)).map Turn.seen := by
    have live : turn.tokenizer.head.input.ended = false :=
      Bool.eq_false_iff.mpr fun ended =>
        untold (Recorded.told (run.moves (List.mem_of_getElem? found)) nofun ended)
    rw [run.appended (Recorded.appendExtends v.toList) appended found live,List.map_take,
      List.map_take,same]
  refine ⟨turns,recorded,others,plain,run,same.symm,run',stable,?_⟩
  intro i turn found differ
  by_contra untold
  have seen := congrArg (fun seen => (seen[i]?).map Prod.fst) (stable i turn found untold)
  simp only [List.getElem?_map,List.getElem?_take_of_lt (Nat.lt_succ_self i),Option.map_map] at seen
  exact differ seen

end Tokenizer
end Munch
