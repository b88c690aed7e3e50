import Munch.Proofs.Wiring

/-! The catalogue of a compiled grammar. A symbol is listed under its own id, and what a
state accepts is a listed symbol of a lexical kind. Main statement: of the listed symbols
the one that stands for the end, and the one that stands for errors, is the only one of
its kind. -/
namespace Munch

/- A symbol is in the catalogue, under its own id. -/
def Grammar.Lists (g : Grammar) (y : Symbol) : Prop := g.symbol? y.id = some y

namespace Draft

theorem soleOnly {symbols : Array Symbol} {kind : SymbolKind} {y : Symbol}
    (found : sole symbols kind = .ok y) : symbols.toList.filter (fun s => s.kind = kind) = [y] := by
  unfold sole at found
  split at found <;> cases found
  assumption

namespace Compiled
variable {d : Draft} {g : Grammar} (c : Compiled d g)
include c

theorem listed {y : Symbol} : g.Lists y ↔ y ∈ g.symbols.toList := by
  constructor
  · intro lists
    exact Array.mem_toList_iff.mpr (Array.mem_of_getElem? lists)
  · intro member
    obtain ⟨id,found⟩ := Array.mem_iff_getElem?.mp (Array.mem_toList_iff.mp member)
    have entry : g.symbol? id = some y := found
    rw [c.symbol] at entry
    obtain ⟨_,_,rfl⟩ := Option.map_eq_some_iff.mp entry
    exact found

theorem listsDeclared {state : Nat} {y : Symbol} (declares : d.Declares state y) : g.Lists y := by
  rw [Grammar.Lists,c.symbol,declares.2]
  rfl

/- What matches is a listed symbol of a lexical kind. -/
theorem listsMatched {text : List Char} {n : Nat} {y : Symbol} (found : g.Matches text n y) :
    g.Lists y ∧ y.kind.isLexical = true := by
  obtain ⟨state,_,declares⟩ := (c.matchesIff.mp found).spelled
  exact ⟨c.listsDeclared declares,c.lexical declares⟩

theorem listsSole {kind : SymbolKind} {y : Symbol} (found : sole d.symbolTable kind = .ok y) :
    g.Lists y ∧ ∀ s, g.Lists s → (s.kind = kind ↔ s = y) := by
  have only := soleOnly found
  have among (s : Symbol) : s ∈ g.symbols.toList ∧ s.kind = kind ↔ s = y := by
    rw [← List.mem_singleton (b := y),← only,List.mem_filter,c.symbols,decide_eq_true_iff]
  refine ⟨c.listed.mpr ((among y).mpr rfl).1,fun s lists => ?_⟩
  rw [← among s]
  exact (and_iff_right (c.listed.mp lists)).symm

theorem endListed : g.Lists g.endSymbol := (c.listsSole c.endSymbol).1

theorem errorListed : g.Lists g.errorSymbol := (c.listsSole c.errorSymbol).1

theorem endKind {y : Symbol} (lists : g.Lists y) : y.kind = .endOfInput ↔ y = g.endSymbol :=
  (c.listsSole c.endSymbol).2 y lists

theorem errorKind {y : Symbol} (lists : g.Lists y) : y.kind = .error ↔ y = g.errorSymbol :=
  (c.listsSole c.errorSymbol).2 y lists

end Compiled
end Draft
end Munch
