import Munch.Input

/-! What a walk has found when it has run over a text: the longest prefix of the text
along which the automaton can be followed from its initial state into a state that
accepts a symbol. A match is not empty and lies within the text, and the leading one is
as long as any. Main statement: the
longest match in a text is found exactly when some prefix matches, and then nothing
longer does. -/
namespace Munch

namespace Grammar

def follow (g : Grammar) (state : Nat) (text : List Char) : Option Nat := text.foldlM g.next? state

def spelled? (g : Grammar) (text : List Char) : Option Symbol :=
  (g.follow g.initial text).bind g.accepted?

structure Matches (g : Grammar) (text : List Char) (length : Nat) (symbol : Symbol) : Prop where
  positive : 0 < length
  within : length ≤ text.length
  spelled : g.spelled? (text.take length) = some symbol

structure Leading (g : Grammar) (text : List Char) (length : Nat) (symbol : Symbol) : Prop where
  found : g.Matches text length symbol
  longest : ∀ n y, g.Matches text n y → n ≤ length

/- The longest match in the whole text, as a walk over all of it finds it. -/
def longest (g : Grammar) (text : List Char) : Longest :=
  .ofWalk ((Walk.start g).run g text) text

theorem followSnoc (g : Grammar) (state : Nat) (text : List Char) (ch : Char) :
    g.follow state (text ++ [ch]) = (g.follow state text).bind (g.next? · ch) := by
  simp only [follow,List.foldlM_append,List.foldlM_cons,List.foldlM_nil]
  cases text.foldlM g.next? state with
  | none => rfl
  | some reached => exact bind_pure (g.next? reached ch)

theorem matchesSnoc {g : Grammar} {text : List Char} {ch : Char} {n : Nat} {y : Symbol} :
    g.Matches (text ++ [ch]) n y ↔
      g.Matches text n y ∨ n = text.length+1 ∧ g.spelled? (text ++ [ch]) = some y := by
  constructor
  · intro h
    have within := h.within
    rw [List.length_append,List.length_singleton] at within
    rcases Nat.lt_or_ge text.length n with longer | inside
    · have whole : n = text.length+1 := Nat.le_antisymm within longer
      have spelled := h.spelled
      rw [List.take_of_length_le (by simp [whole])] at spelled
      exact .inr ⟨whole,spelled⟩
    · have spelled := h.spelled
      rw [List.take_append_of_le_length inside] at spelled
      exact .inl ⟨h.positive,inside,spelled⟩
  · intro h
    rcases h with inside | ⟨whole,spelled⟩
    · refine ⟨inside.positive,?_,?_⟩
      · rw [List.length_append]; exact Nat.le_add_right_of_le inside.within
      · rw [List.take_append_of_le_length inside.within]; exact inside.spelled
    · refine ⟨by omega,by simp [whole],?_⟩
      rw [List.take_of_length_le (by simp [whole])]
      exact spelled

theorem matchesUnique {g : Grammar} {text : List Char} {n : Nat} {y z : Symbol}
    (one : g.Matches text n y) (two : g.Matches text n z) : y = z :=
  Option.some.inj (one.spelled.symm.trans two.spelled)

theorem Leading.unique {g : Grammar} {text : List Char} {n m : Nat} {y z : Symbol}
    (one : g.Leading text n y) (two : g.Leading text m z) : n = m ∧ y = z := by
  have same : n = m := Nat.le_antisymm (two.longest n y one.found) (one.longest m z two.found)
  subst same
  exact ⟨rfl,matchesUnique one.found two.found⟩

end Grammar

theorem Match.eqOf {a b : Match} (length : a.length = b.length) (symbol : a.symbol = b.symbol) :
    a = b := by
  cases a; cases b
  cases length; cases symbol
  rfl

namespace Walk

/- The invariant of a walk over a text: where it is, how far it got, and that its best
match is the longest one so far. -/
structure Records (g : Grammar) (text : List Char) (w : Walk) : Prop where
  reached : w.state = g.follow g.initial text
  counted : w.state.isSome → w.length = text.length
  matched : ∀ m, w.best = some m → g.Matches text m.length m.symbol
  longest : ∀ n y, g.Matches text n y → ∃ m, w.best = some m ∧ n ≤ m.length

theorem runStuck {g : Grammar} {w : Walk} (stuck : w.isStuck) (text : List Char) :
    w.run g text = w := by
  cases text with
  | nil => rfl
  | cons ch rest => rw [Walk.run,if_pos stuck]

theorem recordsStart (g : Grammar) : Records g [] (start g) where
  reached := rfl
  counted _ := rfl
  matched := by simp [start]
  longest n y h := by
    have positive := h.positive
    have within := h.within
    simp only [List.length_nil] at within
    omega

theorem Records.stuck {g : Grammar} {text : List Char} {w w' : Walk} {ch : Char}
    (h : Records g text w) (best : w'.best = w.best) (state : w'.state = none)
    (no : g.follow g.initial (text ++ [ch]) = none) : Records g (text ++ [ch]) w' where
  reached := state.trans no.symm
  counted some := by rw [state] at some; cases some
  matched m found := Grammar.matchesSnoc.mpr (.inl (h.matched m (best.symm.trans found)))
  longest n y found := by
    rcases Grammar.matchesSnoc.mp found with inside | ⟨_,spelled⟩
    · rw [best]; exact h.longest n y inside
    · simp [Grammar.spelled?,no] at spelled

theorem Records.step {g : Grammar} {text : List Char} {w : Walk} (h : Records g text w) (ch : Char) :
    Records g (text ++ [ch]) (w.step g ch) := by
  have next := g.followSnoc g.initial text ch
  rw [← h.reached] at next
  cases state : w.state with
  | none =>
    rw [state] at next
    have same : w.step g ch = w := stepStuck (stuckIff.mpr state) ch
    exact h.stuck (by rw [same]) (by rw [same]; exact state) next
  | some reached =>
    rw [state] at next
    simp only [Option.bind_some] at next
    have counted : w.length = text.length := h.counted (by simp [state])
    simp only [Walk.step,state]
    cases follow : g.next? reached ch with
    | none => exact h.stuck rfl rfl (next.trans follow)
    | some target =>
      have arrived := next.trans follow
      have spelled : g.spelled? (text ++ [ch]) = g.accepted? target := by
        simp [Grammar.spelled?,arrived]
      refine ⟨arrived.symm,fun _ => by simp [counted],?_,?_⟩
      · intro m found
        dsimp only at found
        split at found
        · rename_i symbol accepted
          cases found
          exact Grammar.matchesSnoc.mpr (.inr ⟨by simp [counted],spelled.trans accepted⟩)
        · exact Grammar.matchesSnoc.mpr (.inl (h.matched m found))
      · intro n y found
        dsimp only
        split
        · rename_i symbol accepted
          refine ⟨_,rfl,?_⟩
          have within := found.within
          rw [List.length_append,List.length_singleton] at within
          simpa [counted] using within
        · rename_i refused
          rcases Grammar.matchesSnoc.mp found with inside | ⟨_,whole⟩
          · exact h.longest n y inside
          · rw [spelled,refused] at whole; cases whole

theorem Records.run {g : Grammar} {seen : List Char} {w : Walk} (h : Records g seen w)
    (text : List Char) : Records g (seen ++ text) (w.run g text) := by
  rw [runEqFoldl]
  induction text generalizing seen w with
  | nil => rw [List.append_nil]; exact h
  | cons ch rest ih =>
    rw [List.append_cons]
    exact ih (h.step ch)

theorem recordsRun (g : Grammar) (text : List Char) : Records g text ((start g).run g text) :=
  (recordsStart g).run text

end Walk

namespace Grammar
variable {g : Grammar} {text : List Char}

theorem longestAtEnd : g.longest text = .atEnd ↔ text = [] := by
  cases text with
  | nil => exact ⟨fun _ => rfl,fun _ => rfl⟩
  | cons ch rest =>
    simp only [longest,Longest.ofWalk]
    split <;> simp

theorem longestFound {m : Match} :
    g.longest text = .found m ↔ g.Leading text m.length m.symbol := by
  have records := Walk.recordsRun g text
  constructor
  · intro h
    have best : ((Walk.start g).run g text).best = some m := by
      cases text with
      | nil => cases h
      | cons ch rest =>
        simp only [longest,Longest.ofWalk] at h
        split at h
        · cases h
        · rename_i found; cases h; exact found
    have longest : ∀ n y, g.Matches text n y → n ≤ m.length := by
      intro n y other
      obtain ⟨m',best',le⟩ := records.longest n y other
      cases best.symm.trans best'
      exact le
    exact ⟨records.matched m best,longest⟩
  · intro h
    obtain ⟨m',best,le⟩ := records.longest _ _ h.found
    have found := records.matched m' best
    have same : m'.length = m.length := Nat.le_antisymm (h.longest _ _ found) le
    have whole : m' = m := Match.eqOf same (matchesUnique (same ▸ found) h.found)
    cases text with
    | nil => exact absurd best (by simp [Walk.run,Walk.start])
    | cons ch rest => simp only [longest,Longest.ofWalk,best,whole]

theorem longestNothing : g.longest text = .nothing ↔ text ≠ [] ∧ ∀ n y, ¬ g.Matches text n y := by
  have records := Walk.recordsRun g text
  constructor
  · intro h
    have some : text ≠ [] := by
      intro empty
      rw [longestAtEnd.mpr empty] at h; cases h
    have unmatched : ∀ n y, ¬ g.Matches text n y := by
      intro n y found
      obtain ⟨m,best,_⟩ := records.longest n y found
      cases text with
      | nil => cases h
      | cons ch rest => simp only [longest,Longest.ofWalk,best] at h; cases h
    exact ⟨some,unmatched⟩
  · intro h
    cases result : g.longest text with
    | atEnd => exact absurd (longestAtEnd.mp result) h.1
    | nothing => rfl
    | found m => exact absurd (longestFound.mp result).found (h.2 _ _)

theorem longestWithin {m : Match} (h : g.longest text = .found m) : m.length ≤ text.length :=
  (longestFound.mp h).found.within

/- What follows the place where the automaton gets stuck has no influence. -/
theorem longestStuck (stuck : ((Walk.start g).run g text).isStuck) (rest : List Char) :
    g.longest (text ++ rest) = g.longest text := by
  cases text with
  | nil => cases stuck
  | cons ch tail =>
    simp only [longest,Walk.runAppend,Walk.runStuck stuck]
    rfl

end Grammar
end Munch
