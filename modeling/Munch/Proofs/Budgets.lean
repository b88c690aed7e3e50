import Mathlib.Algebra.Order.BigOperators.Group.List
import Mathlib.Algebra.Order.Group.Nat
import Munch.Proofs.Extension
import Munch.Source.Metered

/-! Budgets. Nothing need be known of a source but how it answers when it is asked; how
often it will be asked is then a budget, and a session over such a source is its session
under a budget that is not used up. Main statements: which of these budgets it is makes no
difference, to the sources themselves; and over a source that has a bound of its own, all
budgets from some budget on are such, and the session under them is the session over the
source. -/
namespace Munch

namespace Metered
variable {ρ : Type} {ask : ρ → Answer × ρ}

def raise (more : Nat) (m : Metered ask) : Metered ask := ⟨m.source,m.budget+more⟩

theorem raised {m m' : Metered ask} {answer : Answer} (shown : CharSource.read m = (answer,m'))
    (left : 0 < m'.budget) (more : Nat) :
    0 < m.budget ∧ CharSource.read (m.raise more) = (answer,m'.raise more) := by
  obtain ⟨source,_ | budget⟩ := m
  · cases shown
    cases left
  · cases shown
    refine ⟨Nat.succ_pos _,?_⟩
    rw [raise,Nat.add_right_comm]
    rfl

theorem raiseExtends (more : Nat) :
    Extends (raise more : Metered ask → Metered ask) fun _ m => 0 < m.budget where
  character shown left := raised shown left more
  finished shown left := raised shown left more
  failure shown left := raised shown left more

end Metered

variable {σ : Type} [CharSource σ]

/- A source that has answers of its own, under a budget. -/
abbrev Rationed (σ : Type) [CharSource σ] := Metered (CharSource.read : σ → Answer × σ)

namespace Recorded

/- What is left of a budget after the answers so far. -/
def rationed (budget : Nat) (r : Recorded σ) : Rationed σ := ⟨r.source,budget-r.answers.length⟩

theorem rationedRead {budget : Nat} {r r' : Recorded σ} {answer : Answer}
    (shown : CharSource.read r = (answer,r')) (left : r'.answers.length < budget) :
    r.answers.length < budget ∧
      CharSource.read (r.rationed budget) = (answer,r'.rationed budget) := by
  obtain ⟨answers,record⟩ := readAfter shown
  rw [record,List.length_append,List.length_singleton] at left
  refine ⟨by omega,?_⟩
  have spent : budget-r.answers.length = budget-r'.answers.length+1 := by
    rw [record,List.length_append,List.length_singleton]
    omega
  rw [rationed,spent]
  exact Metered.readOf answers _

theorem rationedExtends (budget : Nat) :
    Extends (rationed budget : Recorded σ → Rationed σ) fun _ r => r.answers.length < budget where
  character := rationedRead
  finished := rationedRead
  failure := rationedRead

theorem sourceExtends : Extends (source : Recorded σ → σ) fun _ _ => True where
  character shown _ := ⟨trivial,(readAfter shown).1⟩
  finished shown _ := ⟨trivial,(readAfter shown).1⟩
  failure shown _ := ⟨trivial,(readAfter shown).1⟩

end Recorded

namespace Tokenizer

section
variable {ρ : Type} {ask : ρ → Answer × ρ} (g : Grammar) (settings : Settings) (source : ρ)
  (ops : List Operation)

/- A session under a budget. -/
def budgeted (ask : ρ → Answer × ρ) (budget : Nat) : List (Step (Metered ask)) :=
  ((ofSource g (Metered.mk source budget)).configure settings).session ops

/- The budget has not been used up. -/
def Unspent (steps : List (Step (Metered ask))) : Prop :=
  ∀ step ∈ steps, 0 < step.tokenizer.close.budget

/- The steps of a session, whatever its budget. -/
def unmetered (steps : List (Step (Metered ask))) : List (Step ρ) :=
  steps.map (Step.map Metered.source)

theorem budgetRaised {budget : Nat} (unspent : Unspent (budgeted g settings source ops ask budget))
    (more : Nat) : budgeted g settings source ops ask (budget+more) =
      (budgeted g settings source ops ask budget).map (Step.map (Metered.raise more)) :=
  sessionExtends (Metered.raiseExtends more) unspent

theorem budgetsAgree {one other : Nat} (unspent : Unspent (budgeted g settings source ops ask one))
    (unspent' : Unspent (budgeted g settings source ops ask other)) :
    unmetered (budgeted g settings source ops ask one) =
      unmetered (budgeted g settings source ops ask other) := by
  have raised {budget : Nat} (unspent : Unspent (budgeted g settings source ops ask budget))
      (more : Nat) : unmetered (budgeted g settings source ops ask (budget+more)) =
        unmetered (budgeted g settings source ops ask budget) := by
    rw [budgetRaised g settings source ops unspent,unmetered,List.map_map]
    rfl
  rcases Nat.le_total one other with le | le
  · obtain ⟨more,rfl⟩ := Nat.exists_eq_add_of_le le
    exact (raised unspent more).symm
  · obtain ⟨more,rfl⟩ := Nat.exists_eq_add_of_le le
    exact raised unspent' more

end

theorem budgetEnough (g : Grammar) (settings : Settings) (source : σ) (ops : List Operation) :
    ∃ enough, ∀ budget, enough ≤ budget →
      Unspent (budgeted g settings source ops CharSource.read budget) ∧
        unmetered (budgeted g settings source ops CharSource.read budget) =
          ((ofSource g source).configure settings).session ops := by
  let t := (ofSource g (Recorded.mk source [])).configure settings
  let recorded := t.session ops
  let asked (step : Step (Recorded σ)) : Nat := step.tokenizer.close.answers.length
  refine ⟨(recorded.map asked).sum+1,fun budget enough => ?_⟩
  have within : ∀ step ∈ recorded, step.tokenizer.close.answers.length < budget := by
    intro step member
    have le : asked step ≤ (recorded.map asked).sum :=
      List.le_sum_of_mem (List.mem_map_of_mem member)
    exact Nat.lt_of_le_of_lt le enough
  have rationed : budgeted g settings source ops CharSource.read budget =
      recorded.map (Step.map (Recorded.rationed budget)) :=
    sessionExtends (t := t) (Recorded.rationedExtends budget) within
  constructor
  · intro step member
    rw [rationed] at member
    obtain ⟨step',member',rfl⟩ := List.mem_map.mp member
    exact Nat.sub_pos_of_lt (within step' member')
  · have plain : ((ofSource g source).configure settings).session ops =
        recorded.map (Step.map Recorded.source) :=
      sessionExtends (t := t) Recorded.sourceExtends fun _ _ => trivial
    rw [rationed,plain,unmetered,List.map_map]
    rfl

end Tokenizer
end Munch
