import Mathlib.Order.Bounds.Basic
import Munch.Proofs.ReadAhead

/-! How far ahead a search looks. The stride of a text is as far as the automaton can be led
along it. An input over a source that does not fail has asked for a number of characters of
what is left of the text, where one more than there are is the report of the end. Main
statement: a search for a match asks for one character more than the stride, unless as
much has been asked for before, and finds the longest match of all that is left. -/
namespace Munch

namespace Grammar

/- How many characters of a text lead on from a state. -/
def stride (g : Grammar) (state : Nat) : List Char → Nat
  | [] => 0
  | ch::rest => match g.next? state ch with
    | none => 0
    | some target => stride g target rest+1

/- How many characters a search for a match at the front of a text asks for, where one more
than there are is the end. -/
def reach (g : Grammar) (text : List Char) : Nat := g.stride g.initial text+1

theorem followCons (g : Grammar) (state : Nat) (ch : Char) (text : List Char) :
    g.follow state (ch::text) = (g.next? state ch).bind fun target => g.follow target text :=
  List.foldlM_cons

variable {g : Grammar} {text : List Char}

theorem strideWithin (g : Grammar) (state : Nat) (text : List Char) :
    g.stride state text ≤ text.length := by
  fun_induction stride g state text with
  | case1 => exact Nat.le_refl _
  | case2 => exact Nat.zero_le _
  | case3 state ch rest target next ih => exact Nat.succ_le_succ ih

theorem strideIff {state n : Nat} (within : n ≤ text.length) :
    (∃ final, g.follow state (text.take n) = some final) ↔ n ≤ g.stride state text := by
  induction text generalizing state n with
  | nil =>
    cases Nat.le_zero.mp within
    exact iff_of_true ⟨state,rfl⟩ (Nat.zero_le _)
  | cons ch rest ih =>
    cases n with
    | zero => exact iff_of_true ⟨state,rfl⟩ (Nat.zero_le _)
    | succ n =>
      rw [List.take_succ_cons,followCons,stride]
      cases next : g.next? state ch with
      | none => simp
      | some target =>
        rw [Option.bind_some,ih (Nat.le_of_succ_le_succ within)]
        exact Nat.succ_le_succ_iff.symm

theorem strideGreatest (g : Grammar) (state : Nat) (text : List Char) :
    IsGreatest {n | n ≤ text.length ∧ ∃ final, g.follow state (text.take n) = some final}
      (g.stride state text) := by
  have within := g.strideWithin state text
  refine ⟨⟨within,(strideIff within).mpr (Nat.le_refl _)⟩,?_⟩
  intro n led
  exact (strideIff led.1).mp led.2

theorem stuckIff {n : Nat} (within : n ≤ text.length) :
    ((Walk.start g).run g (text.take n)).isStuck ↔ g.reach text ≤ n := by
  have reached := (Walk.recordsRun g (text.take n)).reached
  have led := @strideIff g _ g.initial _ within
  rw [Walk.stuckIff,reached,Option.eq_none_iff_forall_ne_some,
    ← not_exists,led,reach]
  omega

theorem Leading.reached {n : Nat} {y : Symbol} (leading : g.Leading text n y) :
    n < g.reach text := by
  have within := leading.found.within
  obtain ⟨final,led,_⟩ := Option.bind_eq_some_iff.mp leading.found.spelled
  exact Nat.lt_succ_of_le ((strideIff within).mp ⟨final,led⟩)

end Grammar

namespace Input
variable {σ : Type} [CharSource σ]

/- The text is what is left, and so many times has its source been asked beyond what has
been consumed, the report of the end among them. -/
structure Sees (i : Input σ) (text : List Char) (count : Nat) : Prop where
  bounded : count ≤ text.length+1
  pending : i.pending = text.take count
  ended : i.ended = decide (text.length < count)
  left : i.ended = false → Delivers i.source ((text.drop count).map .ok)

namespace Sees
variable {i : Input σ} {text : List Char} {count : Nat}

theorem short (sees : i.Sees text count) (live : i.ended = false) : count ≤ text.length := by
  have short := sees.ended
  rw [live,eq_comm,decide_eq_false_iff_not] at short
  exact Nat.le_of_not_lt short

theorem past (sees : i.Sees text count) (ended : i.ended = true) : count = text.length+1 := by
  have past := sees.ended
  rw [ended,eq_comm,decide_eq_true_eq] at past
  exact Nat.le_antisymm sees.bounded past

theorem yields (sees : i.Sees text count) : i.Yields ((text.drop count).map .ok) := by
  cases ended : i.ended with
  | false => exact .inr ⟨ended,sees.left ended⟩
  | true =>
    refine .inl ⟨ended,?_⟩
    rw [List.drop_of_length_le (by rw [sees.past ended]; exact Nat.le_succ _)]
    rfl

theorem drop (sees : i.Sees text count) {n : Nat} (asked : n ≤ count) (within : n ≤ text.length) :
    (i.drop n).Sees (text.drop n) (count-n) := by
  have bounded := sees.bounded
  refine ⟨?_,?_,?_,fun live => ?_⟩
  · rw [List.length_drop]
    omega
  · rw [Input.drop,sees.pending,List.drop_take]
  · have same : (text.length < count) = ((text.drop n).length < count-n) := by
      rw [List.length_drop]
      exact propext (by omega)
    simp only [← same]
    exact sees.ended
  · rw [List.drop_drop,Nat.add_sub_cancel' asked]
    exact sees.left live

/- A source that has not reported the end yet reports it, or one more character. -/
theorem answer (sees : i.Sees text count) (live : i.ended = false) :
    (count = text.length ∧ ∃ s, CharSource.read i.source = (.ok none,s)) ∨
      ∃ ch rest s, text.drop count = ch::rest ∧ CharSource.read i.source = (.ok (some ch),s) ∧
        Delivers s (rest.map .ok) := by
  have delivers := sees.left live
  cases left : text.drop count with
  | nil =>
    rw [left] at delivers
    cases delivers with
    | finished read =>
      exact .inl ⟨Nat.le_antisymm (sees.short live) (List.drop_eq_nil_iff.mp left),_,read⟩
  | cons ch rest =>
    rw [left] at delivers
    cases delivers with
    | character read tail => exact .inr ⟨ch,rest,_,rfl,read,tail⟩

/- What is seen after one more character. -/
theorem further {s' : σ} {ch : Char} {rest : List Char} (live : count ≤ text.length)
    (left : text.drop count = ch::rest) (tail : Delivers s' (rest.map .ok)) :
    (⟨s',text.take count ++ [ch],false⟩ : Input σ).Sees text (count+1) := by
  have more := congrArg List.length left
  rw [List.length_drop,List.length_cons] at more
  refine ⟨by omega,?_,?_,fun _ => ?_⟩
  · rw [List.take_add,left]
    rfl
  · exact (decide_eq_false (by omega)).symm
  · rw [← List.drop_drop,left]
    exact tail

theorem peek (sees : i.Sees text count) :
    ∃ i', i.peek = (.ok text.head?,i') ∧ i'.Sees text (max count 1) := by
  cases ended : i.ended with
  | true =>
    have past := sees.past ended
    rw [Nat.max_eq_left (by omega)]
    refine ⟨i,?_,sees⟩
    rw [Input.peekEnded ended,sees.pending,List.take_of_length_le (by omega)]
  | false =>
    have pending := sees.pending
    have answer := sees.answer ended
    unfold Input.peek
    rw [pending,ended]
    cases count with
    | succ count =>
      rw [Nat.max_eq_left (Nat.succ_le_succ (Nat.zero_le _))]
      cases text with
      | nil => simpa [ended] using sees.ended
      | cons ch rest => exact ⟨i,rfl,sees⟩
    | zero =>
      rcases answer with ⟨none,source,read⟩ | ⟨ch,rest,source,left,read,tail⟩
      · cases List.length_eq_zero_iff.mp none.symm
        simp only [List.take_nil,read,Bool.false_eq_true,if_false]
        exact ⟨_,rfl,Nat.le_refl _,rfl,rfl,nofun⟩
      · have more := further (σ := σ) (Nat.zero_le _) left tail
        rw [List.drop_zero] at left
        subst left
        simp only [List.take_zero,read,Bool.false_eq_true,if_false]
        exact ⟨_,rfl,more⟩

theorem stuckIff (sees : i.Sees text count) (g : Grammar) (live : i.ended = false) :
    ((Walk.start g).run g i.pending).isStuck ↔ g.reach text ≤ count := by
  rw [sees.pending]
  exact Grammar.stuckIff (sees.short live)

end Sees

/- Reading on goes as far as the automaton is led, and one character further. -/
theorem readOnSees {g : Grammar} {w : Walk} {source : σ} {taken : List Char} {text : List Char}
    {count : Nat} (walked : w = (Walk.start g).run g taken.reverse)
    (sees : Sees ⟨source,taken.reverse,false⟩ text count) :
    ∃ w', (readOn g w source taken).1 = .ok w' ∧
      (readOn g w source taken).2.Sees text (max count (g.reach text)) := by
  have pending : taken.reverse = text.take count := sees.pending
  have short := sees.short rfl
  have stuckIff := sees.stuckIff g rfl
  fun_induction readOn g w source taken generalizing count with
  | case1 w source taken stuck =>
    rw [walked] at stuck
    rw [Nat.max_eq_left (stuckIff.mp stuck)]
    exact ⟨w,rfl,sees⟩
  | case2 w source taken going ch source' read ih =>
    rw [walked,stuckIff] at going
    rcases sees.answer rfl with ⟨_,_,ends⟩ | ⟨ch',rest,_,left,read',tail⟩
    · rw [read] at ends
      cases ends
    · rw [read] at read'
      cases read'
      have more := Sees.further (σ := σ) short left tail
      rw [← pending,← List.reverse_cons] at more
      have further : w.step g ch = (Walk.start g).run g (ch::taken).reverse := by
        rw [List.reverse_cons,Walk.runAppend,← walked,Walk.runEqFoldl]
        rfl
      have same : max count (g.reach text) = max (count+1) (g.reach text) := by omega
      rw [same]
      exact ih further more more.pending (more.short rfl) (more.stuckIff g rfl)
  | case3 w source taken going source' read =>
    rw [walked,stuckIff] at going
    rcases sees.answer rfl with ⟨whole,_,_⟩ | ⟨ch',rest,_,_,read',_⟩
    · have within := g.strideWithin g.initial text
      have past : max count (g.reach text) = text.length+1 := by
        rw [Grammar.reach] at going ⊢
        omega
      rw [past]
      refine ⟨w,rfl,Nat.le_refl _,?_,?_,fun live => ?_⟩
      · rw [pending,List.take_of_length_le (by omega),List.take_of_length_le (by omega)]
      · exact (decide_eq_true (Nat.lt_succ_self _)).symm
      · cases live
    · rw [read] at read'
      cases read'
  | case4 w source taken going e source' read =>
    rcases sees.answer rfl with ⟨_,_,ends⟩ | ⟨ch',rest,_,_,read',_⟩
    · rw [read] at ends
      cases ends
    · rw [read] at read'
      cases read'

namespace Sees
variable {i : Input σ} {text : List Char} {count : Nat}

theorem walk (sees : i.Sees text count) (g : Grammar) :
    ∃ w, (i.walk g).1 = .ok w ∧ (i.walk g).2.Sees text (max count (g.reach text)) := by
  unfold Input.walk
  dsimp only
  split
  · rename_i enough
    have far : g.reach text ≤ count := by
      cases ended : i.ended with
      | true =>
        have within := g.strideWithin g.initial text
        rw [Grammar.reach,sees.past ended]
        omega
      | false =>
        rw [ended,Bool.or_false] at enough
        exact (sees.stuckIff g ended).mp enough
    rw [Nat.max_eq_left far]
    exact ⟨_,rfl,sees⟩
  · rename_i short
    have live : i.ended = false := by simp_all
    refine readOnSees (by rw [List.reverse_reverse]) ?_
    rw [List.reverse_reverse,← live]
    exact sees

theorem longest (sees : i.Sees text count) (g : Grammar) :
    ∃ i', i.longest g = (.ok (g.longest text),i') ∧ i'.Sees text (max count (g.reach text)) := by
  obtain ⟨w,walked,further⟩ := sees.walk g
  obtain ⟨_,_,answers⟩ := Input.longestSettled (g := g) sees.yields
  have found : (i.longest g).1 = .ok (.ofWalk w (i.walk g).2.pending) ∧
      (i.longest g).2 = (i.walk g).2 := by
    unfold Input.longest
    generalize i.walk g = walk at walked
    obtain ⟨_,_⟩ := walk
    cases walked
    exact ⟨rfl,rfl⟩
  have settled := (answers _ found.1).2.1
  rw [Input.longestEnded g (i.settleEnded _),Input.settlePending,sees.pending,
    Delivery.charactersMapOk,List.take_append_drop] at settled
  refine ⟨(i.walk g).2,Prod.ext ?_ found.2,further⟩
  rw [found.1,← (Prod.mk.inj settled).1]

end Sees
end Input
end Munch
