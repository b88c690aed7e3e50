import Munch.Error

/-! Ranges of characters, never empty. Two are apart when at least one code point
lies between them, so the ranges on both sides of the surrogates stay apart. Ranges
in order of their first characters are joined where they are not apart. Main
statements: joining leaves ranges apart and spans the same code points, so it covers
the same characters. -/
namespace Munch

structure CharRange where
  first : Char
  last : Char
  ordered : first.toNat ≤ last.toNat
  deriving DecidableEq, Repr

namespace CharRange

instance : Membership Char CharRange :=
  ⟨fun r ch => r.first.toNat ≤ ch.toNat ∧ ch.toNat ≤ r.last.toNat⟩

instance (ch : Char) (r : CharRange) : Decidable (ch ∈ r) :=
  inferInstanceAs (Decidable (_ ∧ _))

theorem memIff {ch : Char} {r : CharRange} :
    ch ∈ r ↔ r.first.toNat ≤ ch.toNat ∧ ch.toNat ≤ r.last.toNat := Iff.rfl

def single (ch : Char) : CharRange := ⟨ch,ch,Nat.le_refl _⟩

/-- A pair of characters is its two ends and no more: how far one has counted through it
before is not part of it, and it is empty only when they are in the wrong order. -/
def ofPair (first last : Char) : Except Error CharRange :=
  if h : first.toNat ≤ last.toNat then .ok ⟨first,last,h⟩ else .error (Cause.emptyRange first last)

def Before (a b : CharRange) : Prop := a.first.toNat ≤ b.first.toNat

def Apart (a b : CharRange) : Prop := a.last.toNat+1 < b.first.toNat

instance (a b : CharRange) : Decidable (Before a b) := inferInstanceAs (Decidable (_ ≤ _))
instance (a b : CharRange) : Decidable (Apart a b) := inferInstanceAs (Decidable (_ < _))

def sort (ranges : List CharRange) : List CharRange := ranges.mergeSort fun a b => decide (Before a b)

theorem sortSorted (ranges : List CharRange) : (sort ranges).Pairwise Before := by
  have trans (a b c : CharRange) (h : decide (Before a b) = true) (k : decide (Before b c) = true) :
      decide (Before a c) = true :=
    decide_eq_true (Nat.le_trans (of_decide_eq_true h) (of_decide_eq_true k))
  have total (a b : CharRange) : (decide (Before a b) || decide (Before b a)) = true := by
    rcases Nat.le_total a.first.toNat b.first.toNat with h | h
    · exact Bool.or_eq_true_iff.mpr (.inl (decide_eq_true h))
    · exact Bool.or_eq_true_iff.mpr (.inr (decide_eq_true h))
  exact (List.pairwise_mergeSort trans total ranges).imp fun h => of_decide_eq_true h

theorem sortPerm (ranges : List CharRange) : (sort ranges).Perm ranges := List.mergeSort_perm _ _

def side (ch : Char) (r : CharRange) : Ordering :=
  if r.last.toNat < ch.toNat then .lt else if ch.toNat < r.first.toNat then .gt else .eq

theorem sideEqIff {ch : Char} {r : CharRange} : r.side ch = .eq ↔ ch ∈ r := by
  rw [memIff]
  unfold side
  split
  · simp; omega
  · split
    · simp; omega
    · simp; omega

def lengthen (a b : CharRange) : CharRange :=
  if h : a.last.toNat < b.last.toNat then
    ⟨a.first,b.last,Nat.le_trans a.ordered (Nat.le_of_lt h)⟩ else a

theorem lengthenFirst (a b : CharRange) : (a.lengthen b).first = a.first := by
  unfold lengthen; split <;> rfl

def joinFrom (current : CharRange) : List CharRange → List CharRange
  | [] => [current]
  | next::rest =>
    if Apart current next then current :: joinFrom next rest
    else joinFrom (current.lengthen next) rest

def join : List CharRange → List CharRange
  | [] => []
  | current::rest => joinFrom current rest

def Covers (ranges : List CharRange) (ch : Char) : Prop := ∃ r ∈ ranges, ch ∈ r

theorem lengthenSorted {current next : CharRange} {rest : List CharRange}
    (sorted : (current::next::rest).Pairwise Before) :
    (current.lengthen next::rest).Pairwise Before := by
  obtain ⟨low,tail⟩ := List.pairwise_cons.mp sorted
  refine List.pairwise_cons.mpr ⟨fun r member => ?_,(List.pairwise_cons.mp tail).2⟩
  unfold Before
  rw [lengthenFirst]
  exact low r (List.mem_cons_of_mem _ member)

/- A code point within a range, which may be a surrogate. -/
def Holds (r : CharRange) (n : Nat) : Prop := r.first.toNat ≤ n ∧ n ≤ r.last.toNat

def Spans (ranges : List CharRange) (n : Nat) : Prop := ∃ r ∈ ranges, r.Holds n

theorem holdsLengthen {a b : CharRange} (order : Before a b) (near : ¬ Apart a b) {n : Nat} :
    (a.lengthen b).Holds n ↔ a.Holds n ∨ b.Holds n := by
  have ha := a.ordered
  have hb := b.ordered
  unfold Before at order
  unfold Apart at near
  unfold lengthen
  split <;> simp only [Holds] <;> omega

theorem spansJoinFrom {current : CharRange} {ranges : List CharRange}
    (sorted : (current::ranges).Pairwise Before) {n : Nat} :
    Spans (joinFrom current ranges) n ↔ Spans (current::ranges) n := by
  fun_induction joinFrom current ranges with
  | case1 => rfl
  | case2 current next rest apart ih =>
    have tail := ih (List.pairwise_cons.mp sorted).2
    simp only [Spans,List.mem_cons,exists_eq_or_imp] at tail ⊢
    rw [tail]
  | case3 current next rest near ih =>
    have order := (List.pairwise_cons.mp sorted).1 next (by simp)
    rw [ih (lengthenSorted sorted)]
    simp only [Spans,List.mem_cons,exists_eq_or_imp,holdsLengthen order near,or_assoc]

theorem joinFromStarts {current : CharRange} {ranges : List CharRange}
    (sorted : (current::ranges).Pairwise Before) :
    ∀ r ∈ joinFrom current ranges, Before current r := by
  fun_induction joinFrom current ranges with
  | case1 => intro r hr; simp at hr; subst hr; exact Nat.le_refl _
  | case2 current next rest apart ih =>
    obtain ⟨low,tailSorted⟩ := List.pairwise_cons.mp sorted
    intro r hr
    rcases List.mem_cons.mp hr with same | inside
    · subst r; exact Nat.le_refl _
    · exact Nat.le_trans (low next (by simp)) (ih tailSorted r inside)
  | case3 current next rest near ih =>
    intro r hr
    have := ih (lengthenSorted sorted) r hr
    unfold Before at this ⊢
    rwa [lengthenFirst] at this

theorem joinFromApart {current : CharRange} {ranges : List CharRange}
    (sorted : (current::ranges).Pairwise Before) :
    (joinFrom current ranges).Pairwise Apart := by
  fun_induction joinFrom current ranges with
  | case1 => exact List.pairwise_singleton _ _
  | case2 current next rest apart ih =>
    have tailSorted := (List.pairwise_cons.mp sorted).2
    exact List.pairwise_cons.mpr
      ⟨fun r hr => Nat.lt_of_lt_of_le apart (joinFromStarts tailSorted r hr),ih tailSorted⟩
  | case3 current next rest near ih => exact ih (lengthenSorted sorted)

theorem joinApart {ranges : List CharRange} (sorted : ranges.Pairwise Before) :
    (join ranges).Pairwise Apart := by
  cases ranges with
  | nil => exact .nil
  | cons current rest => exact joinFromApart sorted

theorem spansJoin {ranges : List CharRange} (sorted : ranges.Pairwise Before) {n : Nat} :
    Spans (join ranges) n ↔ Spans ranges n := by
  cases ranges with
  | nil => rfl
  | cons current rest => exact spansJoinFrom sorted

theorem spansSort {ranges : List CharRange} {n : Nat} :
    Spans (sort ranges) n ↔ Spans ranges n := by
  simp only [Spans,(sortPerm ranges).mem_iff]

end CharRange

end Munch
