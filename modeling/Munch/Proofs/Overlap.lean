import Munch.Proofs.Wiring

/-! Characters that several edges of a state share. All ranges of the edges are put in
order and each is compared with the next one only, without regard to the edges they
come from. Main statement: this finds a character exactly when two of the edges share
one, and then it is the least they share. -/
namespace Munch

/- At most one entry of a list holds the character. -/
def Exclusive {α : Type} [Membership Char α] (ch : Char) (entries : List α) : Prop :=
  entries.Pairwise fun a b => ¬ (ch ∈ a ∧ ch ∈ b)

namespace CharRange

theorem Apart.exclusive {a b : CharRange} (apart : Apart a b) (ch : Char) :
    ¬ (ch ∈ a ∧ ch ∈ b) := by
  intro both
  unfold Apart at apart
  simp only [memIff] at both
  omega

end CharRange

namespace Draft

theorem firstOverlapSome {ranges : List CharRange} (sorted : ranges.Pairwise CharRange.Before)
    {ch : Char} (found : firstOverlap ranges = some ch) : ¬ Exclusive ch ranges ∧
      ∀ other, ¬ Exclusive other ranges → ch.toNat ≤ other.toNat := by
  fun_induction firstOverlap ranges with
  | case1 a b rest near =>
    cases found
    obtain ⟨low,tail⟩ := List.pairwise_cons.mp sorted
    have first : ∀ r ∈ b::rest, b.first.toNat ≤ r.first.toNat :=
      List.forall_mem_cons.mpr ⟨Nat.le_refl _,(List.pairwise_cons.mp tail).1⟩
    constructor
    · intro exclusive
      have shared : b.first ∈ a ∧ b.first ∈ b :=
        ⟨⟨low b (by simp),near⟩,⟨Nat.le_refl _,b.ordered⟩⟩
      exact (List.pairwise_cons.mp exclusive).1 b (by simp) shared
    · intro other shared
      -- Below the start of the second range only the first one is left.
      refine Nat.le_of_not_lt fun below => shared ?_
      have absent : ∀ r ∈ b::rest, other ∉ r := by
        intro r member inside
        have := first r member
        have := inside.1
        omega
      refine List.pairwise_cons.mpr ⟨fun r member both => absent r member both.2,?_⟩
      exact List.pairwise_of_forall_mem_list fun r member s _ both => absent r member both.1
  | case2 a b rest gap ih =>
    obtain ⟨low,tail⟩ := List.pairwise_cons.mp sorted
    obtain ⟨here,least⟩ := ih tail found
    refine ⟨fun exclusive => here (List.pairwise_cons.mp exclusive).2,?_⟩
    intro other shared
    refine least other fun exclusive => shared (List.pairwise_cons.mpr ⟨?_,exclusive⟩)
    intro r member both
    have first : b.first.toNat ≤ r.first.toNat := by
      rcases List.mem_cons.mp member with same | inside
      · cases same; exact Nat.le_refl _
      · exact (List.pairwise_cons.mp tail).1 r inside
    simp only [CharRange.memIff] at both
    omega
  | case3 ranges short => cases found

/- Ranges of one set are apart, so a character in two ranges is in two sets. -/
theorem pooledExclusive {sets : List CharSet} {ch : Char} :
    Exclusive ch (CharRange.sort (sets.flatMap fun s => s.ranges.toList)) ↔ Exclusive ch sets := by
  unfold Exclusive
  rw [(CharRange.sortPerm _).pairwise_iff fun h both => h both.symm,List.pairwise_flatMap]
  constructor
  · intro h
    apply h.2.imp
    intro s t apart both
    obtain ⟨⟨a,inS,inA⟩,b,inT,inB⟩ := both
    exact apart a inS b inT ⟨inA,inB⟩
  · intro h
    refine ⟨fun s _ => s.apart.imp fun apart => apart.exclusive ch,h.imp ?_⟩
    intro s t apart a inS b inT both
    exact apart ⟨⟨a,inS,both.1⟩,b,inT,both.2⟩

theorem sharedCharSome {sets : List CharSet} {ch : Char} (found : sharedChar sets = some ch) :
    ¬ Exclusive ch sets ∧ ∀ other, ¬ Exclusive other sets → ch.toNat ≤ other.toNat := by
  obtain ⟨shared,least⟩ := firstOverlapSome (CharRange.sortSorted _) found
  rw [pooledExclusive] at shared
  exact ⟨shared,fun other more => least other (fun pooled => more (pooledExclusive.mp pooled))⟩

def Carries (d : Draft) (e : Edge) (ch : Char) : Prop :=
  ∃ s, d.charSets[e.charSet]? = some s ∧ ch ∈ s

/- Two wires, declared one after the other, leave the state with the character. -/
def Shares (d : Draft) (state : Nat) (ch : Char) : Prop :=
  ∃ (i j : Nat) (v w : Wire), i < j ∧ d.wires[i]? = some v ∧ d.wires[j]? = some w ∧
    v.source = state ∧ w.source = state ∧ d.Carries v.edge ch ∧ d.Carries w.edge ch

theorem sharesEdges {d : Draft} {state : Nat} {ch : Char} : d.Shares state ch ↔
    ¬ (d.edgesOf state).Pairwise fun a b => ¬ (d.Carries a ch ∧ d.Carries b ch) := by
  rw [edgesOf,List.pairwise_map,List.pairwise_filter,List.pairwise_iff_getElem]
  constructor
  · intro shares exclusive
    obtain ⟨i,j,v,w,less,first,second,leaves,leaves',both⟩ := shares
    obtain ⟨hi,rfl⟩ := Array.getElem?_eq_some_iff.mp first
    obtain ⟨hj,rfl⟩ := Array.getElem?_eq_some_iff.mp second
    exact exclusive i j hi hj less (decide_eq_true leaves) (decide_eq_true leaves') both
  · intro several
    apply Classical.byContradiction
    intro none
    apply several
    intro i j hi hj less leaves leaves' both
    exact none ⟨i,j,_,_,less,Array.getElem?_eq_getElem hi,Array.getElem?_eq_getElem hj,
      of_decide_eq_true leaves,of_decide_eq_true leaves',both⟩

theorem sharesIff {d : Draft} {state : Nat} {sets : List CharSet} {ch : Char}
    (resolves : (d.edgesOf state).mapM d.resolveEdge = .ok sets) :
    d.Shares state ch ↔ ¬ Exclusive ch sets := by
  let Held (a : Option CharSet) : Prop := ∃ s, a = some s ∧ ch ∈ s
  have looked : (sets.map some).Pairwise (fun a b => ¬ (Held a ∧ Held b)) ↔
      (d.edgesOf state).Pairwise fun a b => ¬ (d.Carries a ch ∧ d.Carries b ch) := by
    rw [← resolved resolves,List.pairwise_map]
    rfl
  rw [sharesEdges,← looked,List.pairwise_map,Exclusive]
  simp only [Held,Option.some.injEq,exists_eq_left']

end Draft
end Munch
