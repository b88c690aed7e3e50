/-! Bisection of an array whose entries lie below, at and above a sought point, in
this order; `place` tells where an entry lies. Main statement: under that order
bisection finds an entry at the point exactly when there is one. -/
namespace Munch.Search

def bisect {α : Type} (entries : Array α) (place : α → Ordering) (lo hi : Nat)
    (bound : hi ≤ entries.size) : Bool :=
  if within : lo < hi then
    have inside : (lo+hi)/2 < entries.size := by omega
    match place entries[(lo+hi)/2] with
    | .lt => bisect entries place ((lo+hi)/2+1) hi bound
    | .eq => true
    | .gt => bisect entries place lo ((lo+hi)/2) (by omega)
  else false
termination_by hi-lo

def Ordered {α : Type} (entries : Array α) (place : α → Ordering) : Prop :=
  ∀ i j (hi : i < entries.size) (hj : j < entries.size), i < j →
    (place entries[i] ≠ .lt → place entries[j] = .gt)

theorem bisectIff {α : Type} {entries : Array α} {place : α → Ordering}
    (ordered : Ordered entries place) (lo hi : Nat) (bound : hi ≤ entries.size) :
    bisect entries place lo hi bound = true ↔
      ∃ i, ∃ h : i < entries.size, lo ≤ i ∧ i < hi ∧ place entries[i] = .eq := by
  fun_induction bisect entries place lo hi bound with
  | case1 lo hi bound within inside below ih =>
    rw [ih]
    constructor
    · rintro ⟨i,h,low,high,at_⟩
      exact ⟨i,h,by omega,high,at_⟩
    · rintro ⟨i,h,low,high,at_⟩
      refine ⟨i,h,?_,high,at_⟩
      rcases Nat.lt_trichotomy i ((lo+hi)/2) with less | same | more
      · have := ordered i _ h inside less (by simp [at_])
        simp [below] at this
      · subst same; simp [below] at at_
      · exact more
  | case2 lo hi bound within inside found =>
    exact ⟨fun _ => ⟨_,inside,by omega,by omega,found⟩,fun _ => rfl⟩
  | case3 lo hi bound within inside above ih =>
    rw [ih]
    constructor
    · rintro ⟨i,h,low,high,at_⟩
      exact ⟨i,h,low,by omega,at_⟩
    · rintro ⟨i,h,low,high,at_⟩
      refine ⟨i,h,low,?_,at_⟩
      rcases Nat.lt_trichotomy i ((lo+hi)/2) with less | same | more
      · exact less
      · subst same; simp [above] at at_
      · have := ordered _ i inside h more (by simp [above])
        simp [at_] at this
  | case4 lo hi bound outside =>
    constructor
    · intro h; cases h
    · rintro ⟨i,_,low,high,_⟩; omega

end Munch.Search
