import Munch.Proofs.Rewiring

/-! The conflict that is reported. Two edges of a state are in conflict when both carry a
character, and a conflict is looked for in a state only when everything that is checked
before has passed, the states before it included. Main statement: a draft that is refused
for a conflict is refused for the one in the first state that has any, over the least
character that two of its edges carry, and so is every draft that differs from it in the
order of the edges only. -/
namespace Munch
namespace Draft

/- A character that two wires of a state carry, the least one, in the first such state. -/
structure Conflict (d : Draft) (state : Nat) (ch : Char) : Prop where
  shares : d.Shares state ch
  firstState : ∀ other more, d.Shares other more → state ≤ other
  leastCharacter : ∀ more, d.Shares state more → ch.toNat ≤ more.toNat

/- What is checked before the edges of a state are searched for a conflict. -/
def agendaBefore (d : Draft) (state : Nat) : List Check :=
  .sole .endOfInput :: .sole .error :: .states :: (d.wires.toList.map .source ++
    ((List.range state).flatMap d.stateAgenda ++
      (.accept state :: (d.edgesOf state).flatMap edgeAgenda)))

theorem agendaSplit {d : Draft} {state : Nat} (known : state < d.accepts.size) :
    ∃ after, d.agenda = d.agendaBefore state ++ .overlap state :: after := by
  obtain ⟨more,size⟩ : ∃ more, d.accepts.size = state+(more+1) :=
    ⟨d.accepts.size-state-1,by omega⟩
  have states : (List.range d.accepts.size).flatMap d.stateAgenda =
      (List.range state).flatMap d.stateAgenda ++ (d.stateAgenda state ++
        ((List.range more).map fun i => state+(i+1)).flatMap d.stateAgenda) := by
    rw [size,List.range_add,List.range_succ_eq_map]
    simp [Function.comp_def]
  refine ⟨((List.range more).map fun i => state+(i+1)).flatMap d.stateAgenda ++ [.start],?_⟩
  simp [agenda,agendaBefore,states,stateAgenda]

theorem overlapBefore {d : Draft} {state other : Nat} :
    .overlap other ∈ d.agendaBefore state ↔ other < state := by
  simp [agendaBefore,memStateAgenda,edgeAgenda]

/- Nothing is found in what is checked before the state is searched for a conflict. -/
structure Searches (d : Draft) (state : Nat) : Prop where
  known : state < d.accepts.size
  before : ∀ check ∈ d.agendaBefore state, d.Passes check

theorem overlapAgenda {d : Draft} {state : Nat} (member : .overlap state ∈ d.agenda) :
    state < d.accepts.size := by
  obtain ⟨other,known,among⟩ : ∃ other < d.accepts.size, .overlap state ∈ d.stateAgenda other := by
    simpa [memAgenda] using member
  have same : state = other := by simpa [memStateAgenda] using among
  omega

theorem compileConflict {d : Draft} {state : Nat} {ch : Char} :
    d.compile = .error (Cause.overlappingEdges state ch) ↔
      d.Searches state ∧ d.Fails (.overlap state) (.overlappingEdges state ch) := by
  rw [compileFails]
  constructor
  · intro fault
    obtain ⟨before,check,after,cause,split,passed,fails,same⟩ := fault
    cases congrArg Error.cause same
    cases fails with
    | overlap shares least =>
      have known : state < d.accepts.size := overlapAgenda (by simp [split])
      obtain ⟨later,explicit⟩ := agendaSplit known
      refine ⟨⟨known,fun check member => ?_⟩,.overlap shares least⟩
      -- The fault would come too early if it stood within what is checked before.
      rcases List.append_eq_append_iff.mp (split.symm.trans explicit) with
        ⟨gap,longer,rest⟩ | ⟨gap,longer,_⟩
      · cases gap with
        | nil => exact passed check (by simpa [longer] using member)
        | cons c gap =>
          cases rest
          have early : .overlap state ∈ d.agendaBefore state := by simp [longer]
          exact absurd (overlapBefore.mp early) (Nat.lt_irrefl state)
      · exact passed check (by simp [longer,member])
  · rintro ⟨searches,fails⟩
    obtain ⟨after,split⟩ := agendaSplit searches.known
    exact ⟨_,_,after,_,split,searches.before,fails,rfl⟩

theorem Searches.conflict {d : Draft} {state : Nat} {ch : Char} (searches : d.Searches state)
    (fails : d.Fails (.overlap state) (.overlappingEdges state ch)) : d.Conflict state ch := by
  cases fails with
  | overlap shares least =>
    refine ⟨shares,fun other more earlier => Nat.le_of_not_lt fun below => ?_,least⟩
    obtain ⟨cause,fails⟩ := sharesFails earlier
    exact searches.before _ (overlapBefore.mpr below) cause fails

namespace Rewired
variable {d d' : Draft} (rewired : d.Rewired d')
include rewired

theorem agendaBefore (state : Nat) : (d.agendaBefore state).Perm (d'.agendaBefore state) := by
  have states : ((List.range state).flatMap d.stateAgenda).Perm
      ((List.range state).flatMap d'.stateAgenda) :=
    List.Perm.flatMap_left _ fun other _ => rewired.stateAgenda other
  have edges := ((rewired.edges state).flatMap_right edgeAgenda).cons (.accept state)
  exact ((((rewired.wires.map _).append (states.append edges)).cons _).cons _).cons _

theorem searches {state : Nat} (searches : d.Searches state) : d'.Searches state where
  known := rewired.accepts ▸ searches.known
  before check member :=
    rewired.passes (searches.before check ((rewired.agendaBefore state).mem_iff.mpr member))

end Rewired

theorem conflictReported {d : Draft} {e : Error} {state : Nat} {ch : Char}
    (refused : d.compile = .error e) (names : e.cause = .overlappingEdges state ch) :
    d.Conflict state ch ∧ ∀ d', d.Rewired d' → d'.compile = .error e ∧ d'.Conflict state ch := by
  obtain ⟨_,_,_,cause,_,_,_,rfl⟩ := compileFails.mp refused
  cases names
  obtain ⟨searches,fails⟩ := compileConflict.mp refused
  refine ⟨searches.conflict fails,fun d' rewired => ?_⟩
  have searches' := rewired.searches searches
  have fails' := rewired.fails fails
  exact ⟨compileConflict.mpr ⟨searches',fails'⟩,searches'.conflict fails'⟩

/- A draft with conflicts in two states, the first of them with ranges that are nested and
ranges that begin together. -/
def crossed : Draft where
  name := "crossed"
  symbols := #[("End",.endOfInput),("Error",.error),("word",.terminal)]
  charSets := #[.ofString "mnopq",.ofString "dez",.ofString "no",.ofString "efm"]
  accepts := #[none,some 2,none]
  wires := #[⟨2,0,1⟩,⟨1,0,1⟩,⟨0,0,1⟩,⟨1,1,2⟩,⟨1,2,0⟩,⟨2,0,2⟩,⟨1,3,1⟩]

/- The same edges, the last one wired first. -/
def backwards : Draft := {crossed with wires := crossed.wires.reverse}

theorem conflictReportedSample : ∃ e, crossed.compile = .error e ∧
    e.cause = .overlappingEdges 1 'e' ∧ crossed.Conflict 1 'e' ∧
    backwards.compile = .error e ∧ backwards.Conflict 1 'e' := by
  have refused : crossed.compile = .error (Cause.overlappingEdges 1 'e' : Error) := by cbv
  have rewired : crossed.Rewired backwards :=
    ⟨rfl,rfl,rfl,by simp [backwards],rfl⟩
  obtain ⟨conflict,others⟩ := conflictReported refused rfl
  exact ⟨_,refused,rfl,conflict,others backwards rewired⟩

end Draft
end Munch
