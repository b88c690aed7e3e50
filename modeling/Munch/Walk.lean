import Munch.Grammar

/-! One run of the automaton over a stretch of characters. It starts in the initial
state, gets stuck where no edge leads on, counts the characters followed, and
remembers the longest prefix that ended in an accepting state. A match is never
empty: the initial state accepts nothing by itself. -/
namespace Munch

structure Match where
  length : Nat
  symbol : Symbol
  positive : 0 < length
  deriving DecidableEq, Repr

structure Walk where
  state : Option Nat
  length : Nat
  best : Option Match
  deriving DecidableEq, Repr

namespace Walk

def start (g : Grammar) : Walk := ⟨some g.initial,0,none⟩

def isStuck (w : Walk) : Bool :=
  match w.state with
  | none => true
  | some _ => false

def step (g : Grammar) (w : Walk) (ch : Char) : Walk :=
  match w.state with
  | none => w
  | some state => match g.next? state ch with
    | none => {w with state := none}
    | some target =>
      ⟨some target,w.length+1,match g.accepted? target with
        | some symbol => some ⟨w.length+1,symbol,Nat.succ_pos _⟩
        | none => w.best⟩

def run (g : Grammar) (w : Walk) : List Char → Walk
  | [] => w
  | ch::rest => if w.isStuck then w else run g (w.step g ch) rest

theorem stuckIff {w : Walk} : w.isStuck ↔ w.state = none := by
  unfold isStuck
  cases w.state <;> simp

theorem stepStuck {g : Grammar} {w : Walk} (h : w.isStuck) (ch : Char) : w.step g ch = w := by
  simp only [step,stuckIff.mp h]

theorem runEqFoldl (g : Grammar) (w : Walk) (run : List Char) :
    w.run g run = run.foldl (step g) w := by
  induction run generalizing w with
  | nil => rfl
  | cons ch rest ih =>
    rw [Walk.run,List.foldl_cons]
    split
    · rename_i stuck
      rw [stepStuck stuck,← ih w]
      cases rest with
      | nil => rfl
      | cons => rw [Walk.run,if_pos stuck]
    · exact ih _

theorem runAppend (g : Grammar) (w : Walk) (a b : List Char) :
    w.run g (a++b) = (w.run g a).run g b := by
  simp only [runEqFoldl,List.foldl_append]

end Walk
end Munch
