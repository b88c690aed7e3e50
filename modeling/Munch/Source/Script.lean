import Munch.Source

/-! A source that gives fixed answers in turn, and reports the end ever after. -/
namespace Munch

structure Script where
  answers : List Answer

namespace Script

def read : Script → Answer × Script
  | ⟨[]⟩ => (.ok none,⟨[]⟩)
  | ⟨answer::rest⟩ => (answer,⟨rest⟩)

def remaining (s : Script) : List Char :=
  s.answers.filterMap fun
    | .ok answer => answer
    | .error _ => none

instance : CharSource Script where
  read := read
  bound s := s.answers.length
  boundLe
    | ⟨[]⟩ => Nat.le_refl _
    | ⟨_::_⟩ => Nat.le_succ _
  boundLt
    | ⟨[]⟩, _, _, h => by simp [read] at h
    | ⟨_::_⟩, _, _, h => by
      simp only [read,Prod.mk.injEq] at h
      rw [← h.2]; exact Nat.lt_succ_self _

end Script
end Munch
