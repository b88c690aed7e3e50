import Munch.Head
import Munch.Settings

/-! Bodies of comments. A line comment runs up to the end of its line. A block
comment runs up to the marker that closes it, or is cut off by the end of the
input; text in it is taken by single characters, so that a marker is found wherever
it starts, and markers whole. A failed read leaves the comment as far as it has got. -/
namespace Munch

/-- A comment whose opening marker has been consumed: what its token will show so
far, where it starts, and the number of markers that must close it. -/
structure OpenComment where
  symbol : Symbol
  text : String
  start : Position
  depth : Nat
  deriving DecidableEq, Repr

namespace OpenComment
variable {σ : Type} [CharSource σ]

def append (c : OpenComment) (run : List Char) : OpenComment :=
  {c with text := c.text ++ String.ofList run}

def endsLine (ch : Char) : Bool := ch = '\r' || ch = '\n'

def finishLine (h : Head σ) (c : OpenComment) : Except ReadError Unit × Head σ × OpenComment :=
  match _peek : h.input.peek with
  | (.error e,input) => (.error e,{h with input},c)
  | (.ok none,input) => (.ok (),{h with input},c)
  | (.ok (some ch),input) =>
    if endsLine ch then (.ok (),{h with input},c)
    else
      let h' : Head σ := {h with input}
      finishLine (h'.consume 1) {c with text := c.text.push ch}
termination_by h.bound
decreasing_by
  obtain ⟨rest,pending⟩ := Input.peekPending _peek
  have le := Input.peekBound h.input
  rw [_peek] at le
  exact Nat.lt_of_lt_of_le (Input.dropBound (by rw [pending]; simp) Nat.one_pos) le

inductive Reaction where
  | cutOff
  | close (length : Nat)
  | take (length depth : Nat)
  deriving DecidableEq, Repr

namespace Reaction

def ofLongest (nested : Bool) (depth : Nat) : Longest → Reaction
  | .atEnd => cutOff
  | .nothing => take 1 depth
  | .found m =>
    if m.symbol.kind = .commentBlockEnd then
      if depth ≤ 1 then close m.length else take m.length (depth-1)
    else if m.symbol.kind = .commentBlockStart ∧ nested then take m.length (depth+1)
    else take 1 depth

theorem ofLongestTake {nested : Bool} {depth length after : Nat} {found : Longest}
    (h : ofLongest nested depth found = take length after) : found ≠ .atEnd ∧ 0 < length := by
  cases found with
  | atEnd => simp [ofLongest] at h
  | nothing => simp only [ofLongest,take.injEq] at h; exact ⟨by simp,by omega⟩
  | found m =>
    have := m.positive
    refine ⟨by simp,?_⟩
    simp only [ofLongest] at h
    repeat' split at h
    all_goals simp only [take.injEq,reduceCtorEq] at h
    all_goals omega

end Reaction

inductive Ending where
  | closed | cutOff
  deriving DecidableEq, Repr

def finishBlock (g : Grammar) (settings : Settings) (h : Head σ) (c : OpenComment) :
    Except ReadError Ending × Head σ × OpenComment :=
  match _found : h.input.longest g with
  | (.error e,input) => (.error e,{h with input},c)
  | (.ok found,input) =>
    let h' : Head σ := {h with input}
    match _reaction : Reaction.ofLongest settings.nestedBlockComments c.depth found with
    | .cutOff => (.ok .cutOff,h',c)
    | .close length =>
      (.ok .closed,h'.consume length,
        if settings.commentText = .withDelimiters then c.append (h'.ahead length) else c)
    | .take length depth =>
      finishBlock g settings (h'.consume length) {c.append (h'.ahead length) with depth}
termination_by h.bound
decreasing_by
  obtain ⟨more,positive⟩ := Reaction.ofLongestTake _reaction
  have le := Input.longestBound g h.input
  rw [_found] at le
  exact Nat.lt_of_lt_of_le (Input.dropBound (Input.longestPending _found more) positive) le

theorem finishLineBound (h : Head σ) (c : OpenComment) :
    (finishLine h c).2.1.bound ≤ h.bound := by
  fun_induction finishLine h c with
  | case1 h c e input peek => have := Input.peekBound h.input; rwa [peek] at this
  | case2 h c input peek => have := Input.peekBound h.input; rwa [peek] at this
  | case3 h c ch input peek _ => have := Input.peekBound h.input; rwa [peek] at this
  | case4 h c ch input peek _ h' ih =>
    have := Input.peekBound h.input
    rw [peek] at this
    refine Nat.le_trans ih (Nat.le_trans ?_ this)
    simp [h',Head.bound,Head.consume,Input.bound,Input.drop]

theorem finishBlockBound (g : Grammar) (settings : Settings) (h : Head σ) (c : OpenComment) :
    (finishBlock g settings h c).2.1.bound ≤ h.bound := by
  fun_induction finishBlock g settings h c with
  | case1 h c e input found => have := Input.longestBound g h.input; rwa [found] at this
  | case2 h c found input longest => have := Input.longestBound g h.input; rwa [longest] at this
  | case3 h c found input longest h' length =>
    have := Input.longestBound g h.input
    rw [longest] at this
    refine Nat.le_trans ?_ this
    simp [h',Head.bound,Head.consume,Input.bound,Input.drop]
  | case4 h c found input longest h' length depth _ ih =>
    have := Input.longestBound g h.input
    rw [longest] at this
    refine Nat.le_trans ih (Nat.le_trans ?_ this)
    simp [h',Head.bound,Head.consume,Input.bound,Input.drop]

end OpenComment
end Munch
