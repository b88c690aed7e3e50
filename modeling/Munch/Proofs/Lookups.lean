import Munch.Proofs.Faultless
import Munch.Proofs.Interchange

/-! Looking symbols up. The symbols of a compiled grammar are the declared ones, in the
order of their declarations, each under the number of those before it; so of the symbols
that bear a name the first has the least id. Main statement: every lookup, by id, by name
or by kind, agrees with the declarations, however often a name is declared, and so does
the index through which names are resolved. -/
namespace Munch

/- In order of their ids, the first symbol that qualifies is the one of least id. -/
theorem findLeast {p : Symbol → Bool} {symbols : List Symbol}
    (ordered : symbols.Pairwise fun y z => y.id < z.id) {y : Symbol} :
    symbols.find? p = some y ↔
      y ∈ symbols ∧ p y = true ∧ ∀ z ∈ symbols, p z = true → y.id ≤ z.id := by
  induction symbols with
  | nil => simp
  | cons first rest ih =>
    obtain ⟨before,tail⟩ := List.pairwise_cons.mp ordered
    cases qualifies : p first with
    | true =>
      rw [List.find?_cons_of_pos qualifies]
      constructor
      · rintro ⟨⟩
        refine ⟨.head _,qualifies,List.forall_mem_cons.mpr ⟨fun _ => Nat.le_refl _,?_⟩⟩
        exact fun z member _ => Nat.le_of_lt (before z member)
      · rintro ⟨member,_,least⟩
        rcases List.mem_cons.mp member with same | inside
        · rw [same]
        · have above := before y inside
          have below := least first (.head _) qualifies
          omega
    | false =>
      rw [List.find?_cons_of_neg (by simp [qualifies]),ih tail]
      constructor
      · rintro ⟨member,holds,least⟩
        refine ⟨.tail _ member,holds,List.forall_mem_cons.mpr ⟨fun holds' => ?_,least⟩⟩
        rw [qualifies] at holds'
        cases holds'
      · rintro ⟨member,holds,least⟩
        rcases List.mem_cons.mp member with same | inside
        · rw [same,qualifies] at holds
          cases holds
        · exact ⟨inside,holds,(List.forall_mem_cons.mp least).2⟩

/- What a grammar answers about symbols that have been declared in this order. -/
structure Grammar.Catalogues (g : Grammar) (declared : List (String × SymbolKind)) : Prop where
  symbols : g.symbols.toList = declared.mapIdx fun id s => ⟨id,s.1,s.2⟩
  symbol : ∀ id, g.symbol? id = (declared[id]?).map fun s => ⟨id,s.1,s.2⟩
  /-- Of the symbols that bear a name, the one of least id stands for it. -/
  named : ∀ name y, g.symbolByName? name = some y ↔
    y ∈ g.symbols.toList ∧ y.name = name ∧ ∀ z ∈ g.symbols.toList, z.name = name → y.id ≤ z.id
  unnamed : ∀ name, g.symbolByName? name = none ↔ ∀ kind, (name,kind) ∉ declared
  /-- The index of names resolves each of them to that symbol. -/
  indexed : ∀ name, g.tryByName name = .ok (g.symbolByName? name)
  kinds : ∀ kind y, y ∈ g.symbolsOfKind kind ↔ y ∈ g.symbols.toList ∧ y.kind = kind
  increasing : ∀ kind, (g.symbolsOfKind kind).Pairwise fun y z => y.id < z.id
  ending : g.symbolsOfKind .endOfInput = [g.endSymbol]
  error : g.symbolsOfKind .error = [g.errorSymbol]

namespace Draft

theorem tableOrdered (d : Draft) : d.symbolTable.toList.Pairwise fun y z => y.id < z.id := by
  rw [symbolTable,Array.toList_mapIdx,List.pairwise_iff_getElem]
  intro i j _ _ less
  simpa using less

namespace Compiled
variable {d : Draft} {g : Grammar} (c : d.Compiled g)
include c

theorem ordered : g.symbols.toList.Pairwise fun y z => y.id < z.id := c.symbols ▸ d.tableOrdered

theorem named (name : String) (y : Symbol) : g.symbolByName? name = some y ↔
    y ∈ g.symbols.toList ∧ y.name = name ∧ ∀ z ∈ g.symbols.toList, z.name = name → y.id ≤ z.id := by
  rw [Grammar.symbolByName?,← Array.find?_toList,findLeast c.ordered]
  simp only [decide_eq_true_iff]

theorem unnamed (name : String) :
    g.symbolByName? name = none ↔ ∀ kind, (name,kind) ∉ d.symbols.toList := by
  have table : g.symbols.toList = d.symbols.toList.mapIdx fun id s => ⟨id,s.1,s.2⟩ := by
    rw [c.symbols,symbolTable,Array.toList_mapIdx]
  rw [Grammar.symbolByName?,← Array.find?_toList,List.find?_eq_none,table]
  simp only [decide_eq_true_iff]
  constructor
  · intro none kind member
    obtain ⟨id,within,found⟩ := List.getElem_of_mem member
    refine none ⟨id,name,kind⟩ (List.mem_mapIdx.mpr ⟨id,within,?_⟩) rfl
    rw [found]
  · intro none y member bears
    obtain ⟨id,within,rfl⟩ := List.mem_mapIdx.mp member
    subst bears
    exact none _ (List.getElem_mem within)

end Compiled

theorem declaredLookups {name : String} {ds : List Declaration} {g : Grammar}
    (compiles : (declared name ds).compile = .ok g) :
    g.Catalogues (ds.filterMap Declaration.symbol?) := by
  have c := compiled compiles
  have records : (declared name ds).symbols.toList = ds.filterMap Declaration.symbol? :=
    (declaredRecords name ds).symbols
  have only {kind : SymbolKind} {y : Symbol}
      (sole : sole (declared name ds).symbolTable kind = .ok y) : g.symbolsOfKind kind = [y] := by
    rw [Grammar.symbolsOfKind,c.symbols]
    exact soleOnly sole
  rw [← records]
  constructor
  case symbols => rw [c.symbols,symbolTable,Array.toList_mapIdx]
  case symbol => exact fun id => by rw [c.symbol,Array.getElem?_toList]
  case named => exact c.named
  case unnamed => exact c.unnamed
  case indexed => exact c.tryByName
  case kinds => exact fun kind y => by rw [Grammar.symbolsOfKind,List.mem_filter,decide_eq_true_iff]
  case increasing => exact fun kind => c.ordered.filter _
  case ending => exact only c.endSymbol
  case error => exact only c.errorSymbol

/- A name that three symbols bear, of which one stands for errors. -/
def homonyms : List Declaration :=
  [.symbol "word" .terminal,.state (some 3),.symbol "Error" .error,.symbol "End" .endOfInput,
    .symbol "word" .whiteSpace,.symbol "Error" .terminal]

theorem declaredLookupsSample : ∃ g, (declared "homonyms" homonyms).compile = .ok g ∧
    g.Catalogues [("word",.terminal),("Error",.error),("End",.endOfInput),("word",.whiteSpace),
      ("Error",.terminal)] ∧
    g.symbolByName? "word" = some ⟨0,"word",.terminal⟩ := by
  obtain ⟨g,compiles⟩ : ∃ g, (declared "homonyms" homonyms).compile = .ok g :=
    compilesOk (by cbv)
  exact ⟨g,compiles,declaredLookups compiles,
    ofCompile (f := fun g => g.symbolByName? "word") compiles (by cbv)⟩

end Draft
end Munch
