import Munch.Proofs.WellFormed

/-! The order in which edges are wired. Two drafts that differ in it alone lead from state
to state along the same characters, and their states share the same characters. The checks
of the one are those of the other in another order, and each of them finds the same. Main
statement: both drafts are well formed or neither is. -/
namespace Munch
namespace Draft

/- The same declarations, the edges in any order. -/
structure Rewired (d d' : Draft) : Prop where
  symbols : d.symbols = d'.symbols
  charSets : d.charSets = d'.charSets
  accepts : d.accepts = d'.accepts
  wires : d.wires.toList.Perm d'.wires.toList
  start : d.start = d'.start

namespace Rewired
variable {d d' : Draft} (rewired : d.Rewired d')
include rewired

theorem symm : d'.Rewired d :=
  ⟨rewired.symbols.symm,rewired.charSets.symm,rewired.accepts.symm,rewired.wires.symm,
    rewired.start.symm⟩

theorem wired {w : Wire} : w ∈ d.wires ↔ w ∈ d'.wires := by
  simp only [← Array.mem_toList_iff,rewired.wires.mem_iff]

theorem edges (state : Nat) : (d.edgesOf state).Perm (d'.edgesOf state) :=
  (rewired.wires.filter _).map _

theorem leads {source target : Nat} {ch : Char} :
    d.Leads source ch target ↔ d'.Leads source ch target := by
  simp only [Leads,rewired.wired,rewired.charSets]

theorem declares {state : Nat} {y : Symbol} : d.Declares state y ↔ d'.Declares state y := by
  simp only [Declares,rewired.accepts,rewired.symbols]

theorem shares {state : Nat} {ch : Char} : d.Shares state ch ↔ d'.Shares state ch := by
  have exclusive := (rewired.edges state).pairwise_iff
    (R := fun a b => ¬ (d.Carries a ch ∧ d.Carries b ch)) fun h both => h both.symm
  have carries : d.Carries = d'.Carries := by
    funext e ch
    simp only [Carries,rewired.charSets]
  simp only [sharesEdges,exclusive]
  rw [carries]

theorem named (kind : SymbolKind) : d.named kind = d'.named kind := by
  simp only [Draft.named,rewired.symbols]

theorem fails {check : Check} {cause : Cause} (fails : d.Fails check cause) :
    d'.Fails check cause := by
  have accepts := rewired.accepts
  have symbols := rewired.symbols
  cases fails with
  | missing none => exact .missing (rewired.named _ ▸ none)
  | several several => exact .several (rewired.named _ ▸ several)
  | noStates none => exact .noStates (accepts ▸ none)
  | source unknown => exact .source (accepts ▸ unknown)
  | unknownSymbol declared unknown => exact .unknownSymbol (accepts ▸ declared) (symbols ▸ unknown)
  | unacceptable declared known barred =>
    exact .unacceptable (accepts ▸ declared) (symbols ▸ known) barred
  | target unknown => exact .target (accepts ▸ unknown)
  | charSet unknown => exact .charSet (rewired.charSets ▸ unknown)
  | overlap shares least =>
    exact .overlap (rewired.shares.mp shares)
      fun other more => least other (rewired.shares.mpr more)
  | start unknown =>
    rw [rewired.start] at unknown ⊢
    exact .start (accepts ▸ unknown)

theorem passes {check : Check} (passes : d.Passes check) : d'.Passes check :=
  fun cause fails => passes cause (rewired.symm.fails fails)

theorem stateAgenda (state : Nat) : (d.stateAgenda state).Perm (d'.stateAgenda state) :=
  (((rewired.edges state).flatMap_right edgeAgenda).cons _).append_right _

theorem agenda : d.agenda.Perm d'.agenda := by
  have states : ((List.range d.accepts.size).flatMap d.stateAgenda).Perm
      ((List.range d'.accepts.size).flatMap d'.stateAgenda) := by
    rw [rewired.accepts]
    exact List.Perm.flatMap_left _ fun state _ => rewired.stateAgenda state
  exact ((((rewired.wires.map _).append (states.append_right _)).cons _).cons _).cons _

theorem wellFormed : d.WellFormed ↔ d'.WellFormed := by
  simp only [wellFormedIff]
  constructor
  · intro pass check member
    exact rewired.passes (pass check (rewired.agenda.mem_iff.mpr member))
  · intro pass check member
    exact rewired.symm.passes (pass check (rewired.agenda.mem_iff.mp member))

end Rewired
end Draft
end Munch
