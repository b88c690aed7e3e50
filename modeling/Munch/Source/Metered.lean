import Munch.Source

/-! A source of which nothing is known but how it answers when it is asked. It may go on
with characters after it has reported the end, and for ever. The budget is how often it will
be asked; after that the end is reported in its place. -/
namespace Munch

structure Metered {ρ : Type} (ask : ρ → Answer × ρ) where
  source : ρ
  budget : Nat

namespace Metered
variable {ρ : Type} {ask : ρ → Answer × ρ}

def read : Metered ask → Answer × Metered ask
  | ⟨s,0⟩ => (.ok none,⟨s,0⟩)
  | ⟨s,budget+1⟩ => ((ask s).1,⟨(ask s).2,budget⟩)

instance : CharSource (Metered ask) where
  read := read
  bound m := m.budget
  boundLe
    | ⟨_,0⟩ => Nat.le_refl _
    | ⟨_,_+1⟩ => Nat.le_succ _
  boundLt
    | ⟨_,0⟩, _, _, h => by simp [read] at h
    | ⟨_,_+1⟩, _, _, h => by
      simp only [read,Prod.mk.injEq] at h
      rw [← h.2]; exact Nat.lt_succ_self _

theorem readOf {s s' : ρ} {answer : Answer} (asked : ask s = (answer,s')) (budget : Nat) :
    CharSource.read (⟨s,budget+1⟩ : Metered ask) = (answer,⟨s',budget⟩) := by
  simp only [CharSource.read,read,asked]

end Metered
end Munch
