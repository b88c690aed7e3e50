import Munch.Source
import Munch.Walk

/-! What a tokenizer has still to read: characters read ahead, then its source. The
source is asked only when a character beyond those is needed, and never again after
it has reported the end. `peek` shows the next character and `longest` the longest
match at the front; neither consumes anything. `bound` is at least the number of
characters still to be consumed. -/
namespace Munch

structure Input (σ : Type) where
  source : σ
  pending : List Char := []
  ended : Bool := false

inductive Longest where
  | atEnd
  | nothing
  | found (best : Match)
  deriving DecidableEq, Repr

namespace Longest

def ofWalk (w : Walk) : List Char → Longest
  | [] => atEnd
  | _::_ => match w.best with
    | none => nothing
    | some best => found best

end Longest

namespace Input
variable {σ : Type}

def drop (i : Input σ) (count : Nat) : Input σ := {i with pending := i.pending.drop count}

variable [CharSource σ]

def bound (i : Input σ) : Nat := CharSource.bound i.source+i.pending.length

def peek (i : Input σ) : Answer × Input σ :=
  match i.pending with
  | ch::_ => (.ok (some ch),i)
  | [] =>
    if i.ended then (.ok none,i)
    else match CharSource.read i.source with
      | (.ok (some ch),source) => (.ok (some ch),⟨source,[ch],false⟩)
      | (.ok none,source) => (.ok none,⟨source,[],true⟩)
      | (.error e,source) => (.error e,⟨source,[],false⟩)

/-- Reads on while the walk is not stuck. `taken` holds the characters read ahead,
the last one first. -/
def readOn (g : Grammar) (w : Walk) (source : σ) (taken : List Char) :
    Except ReadError Walk × Input σ :=
  if w.isStuck then (.ok w,⟨source,taken.reverse,false⟩)
  else match _read : CharSource.read source with
    | (.ok (some ch),source') => readOn g (w.step g ch) source' (ch::taken)
    | (.ok none,source') => (.ok w,⟨source',taken.reverse,true⟩)
    | (.error e,source') => (.error e,⟨source',taken.reverse,false⟩)
termination_by CharSource.bound source
decreasing_by exact CharSource.boundLt _ _ _ _read

def walk (g : Grammar) (i : Input σ) : Except ReadError Walk × Input σ :=
  let w := (Walk.start g).run g i.pending
  if w.isStuck || i.ended then (.ok w,i) else readOn g w i.source i.pending.reverse

def longest (g : Grammar) (i : Input σ) : Except ReadError Longest × Input σ :=
  match i.walk g with
  | (.ok w,i) => (.ok (.ofWalk w i.pending),i)
  | (.error e,i) => (.error e,i)

theorem peekBound (i : Input σ) : i.peek.2.bound ≤ i.bound := by
  unfold peek
  split
  · exact Nat.le_refl _
  · rename_i empty
    split
    · exact Nat.le_refl _
    · have le := CharSource.boundLe i.source
      split
      · rename_i ch source read
        have := CharSource.boundLt _ _ _ read
        simp only [bound,empty,List.length_cons,List.length_nil]; omega
      · rename_i source read
        rw [read] at le
        simpa [bound,empty] using le
      · rename_i e source read
        rw [read] at le
        simpa [bound,empty] using le

theorem peekPending {i i' : Input σ} {ch : Char} (h : i.peek = (.ok (some ch),i')) :
    ∃ rest, i'.pending = ch::rest := by
  unfold peek at h
  repeat' split at h
  all_goals simp only [Prod.mk.injEq,Except.ok.injEq,Option.some.injEq,reduceCtorEq,false_and] at h
  · obtain ⟨same,rfl⟩ := h; subst same; exact ⟨_,by assumption⟩
  · obtain ⟨same,rfl⟩ := h; subst same; exact ⟨_,rfl⟩

theorem readOnBound (g : Grammar) (w : Walk) (source : σ) (taken : List Char) :
    (readOn g w source taken).2.bound ≤ CharSource.bound source+taken.length := by
  fun_induction readOn g w source taken with
  | case1 => simp [bound]
  | case2 w source taken _ ch source' step ih =>
    have := CharSource.boundLt _ _ _ step
    simp only [List.length_cons] at ih
    omega
  | case3 w source taken _ source' step =>
    have := CharSource.boundLe source
    rw [step] at this
    simpa [bound] using this
  | case4 w source taken _ e source' step =>
    have := CharSource.boundLe source
    rw [step] at this
    simpa [bound] using this

theorem walkBound (g : Grammar) (i : Input σ) : (i.walk g).2.bound ≤ i.bound := by
  unfold walk
  dsimp only
  split
  · exact Nat.le_refl _
  · simpa [bound] using readOnBound g ((Walk.start g).run g i.pending) i.source i.pending.reverse

theorem longestBound (g : Grammar) (i : Input σ) : (i.longest g).2.bound ≤ i.bound := by
  have := walkBound g i
  unfold longest
  split
  · rename_i walked; rwa [walked] at this
  · rename_i walked; rwa [walked] at this

theorem longestPending {g : Grammar} {i i' : Input σ} {found : Longest}
    (h : i.longest g = (.ok found,i')) (more : found ≠ .atEnd) : i'.pending ≠ [] := by
  unfold longest at h
  split at h
  · rename_i w i'' _
    obtain ⟨same,rfl⟩ := Prod.mk.inj h
    intro empty
    rw [empty] at same
    exact more (Except.ok.inj same).symm
  · simp at h

theorem dropBound {i : Input σ} {count : Nat} (some : i.pending ≠ []) (positive : 0 < count) :
    (i.drop count).bound < i.bound := by
  have := List.length_pos_iff.mpr some
  simp only [bound,drop,List.length_drop]
  omega

end Input
end Munch
