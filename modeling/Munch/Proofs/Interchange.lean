import Munch.Proofs.Moves
import Munch.Proofs.Rewiring
import Munch.Proofs.Simulation
import Munch.Tokenizer.Drain

/-! Grammars that can be put in each other's place. A tokenizer asks its grammar where a
character leads, what a state accepts, where to start and for two symbols, and for nothing
else, so with two grammars that answer alike it does the same. Main statement: a compiled
grammar leads along exactly the edges that were declared and accepts exactly what its states
were declared with, and where the same is declared with the edges in another order, both
compile or neither does, and the two can be put in each other's place. -/
namespace Munch

/-! What is declared, sort by sort. -/

namespace Declaration

def symbol? : Declaration → Option (String × SymbolKind)
  | .symbol name kind => some (name,kind)
  | _ => none

def charSet? : Declaration → Option CharSet
  | .charSet set => some set
  | _ => none

def state? : Declaration → Option (Option Nat)
  | .state accept => some accept
  | _ => none

def wire? : Declaration → Option Wire
  | .edge source set target => some ⟨source,set,target⟩
  | _ => none

def start? : Declaration → Option Nat
  | .start id => some id
  | _ => none

theorem wireIff {next : Declaration} {w : Wire} :
    next.wire? = some w ↔ next = .edge w.source w.edge.charSet w.edge.target := by
  obtain ⟨source,charSet,target⟩ := w
  cases next <;> simp [wire?]

/- The same declarations, the edges in any order and the sorts in any mixture. -/
structure Reordered (ds ds' : List Declaration) : Prop where
  symbols : ds.filterMap symbol? = ds'.filterMap symbol?
  charSets : ds.filterMap charSet? = ds'.filterMap charSet?
  states : ds.filterMap state? = ds'.filterMap state?
  edges : (ds.filterMap wire?).Perm (ds'.filterMap wire?)
  start : (ds.filterMap start?).getLast? = (ds'.filterMap start?).getLast?

end Declaration

namespace Grammar

/- A grammar leads where an edge was declared, and accepts what its states were declared
with. -/
structure Follows (g : Grammar) (ds : List Declaration) : Prop where
  next : ∀ source ch target, g.next? source ch = some target ↔ ∃ k set,
    .edge source k target ∈ ds ∧ (ds.filterMap Declaration.charSet?)[k]? = some set ∧ ch ∈ set
  accepts : ∀ (state id : Nat), (ds.filterMap Declaration.state?)[state]? = some (some id) →
    ∃ name kind, (ds.filterMap Declaration.symbol?)[id]? = some (name,kind) ∧
      g.accepted? state = some ⟨id,name,kind⟩
  plain : ∀ state : Nat, (∀ id, (ds.filterMap Declaration.state?)[state]? ≠ some (some id)) →
    g.accepted? state = none
  initial : g.initial = ((ds.filterMap Declaration.start?).getLast?).getD 0

/- Two grammars with the same answers to what a tokenizer asks. -/
structure Alike (g g' : Grammar) : Prop where
  next : ∀ state ch, g.next? state ch = g'.next? state ch
  accepted : ∀ state, g.accepted? state = g'.accepted? state
  initial : g.initial = g'.initial
  endSymbol : g.endSymbol = g'.endSymbol
  errorSymbol : g.errorSymbol = g'.errorSymbol

end Grammar

namespace Draft

theorem declaredRewired {ds ds' : List Declaration} (name name' : String)
    (reordered : Declaration.Reordered ds ds') :
    (declared name ds).Rewired (declared name' ds') := by
  have records := declaredRecords name ds
  have records' := declaredRecords name' ds'
  refine ⟨?_,?_,?_,?_,?_⟩
  · exact Array.toList_inj.mp
      (records.symbols.trans (reordered.symbols.trans records'.symbols.symm))
  · exact Array.toList_inj.mp
      (records.charSets.trans (reordered.charSets.trans records'.charSets.symm))
  · exact Array.toList_inj.mp (records.accepts.trans (reordered.states.trans records'.accepts.symm))
  · rw [records.wires,records'.wires]
    exact reordered.edges
  · exact records.start.trans ((congrArg (·.getD 0) reordered.start).trans records'.start.symm)

theorem Compiled.follows {name : String} {ds : List Declaration} {g : Grammar}
    (c : Compiled (declared name ds) g) (wellFormed : (declared name ds).WellFormed) :
    g.Follows ds := by
  have records := declaredRecords name ds
  generalize declared name ds = d at c wellFormed records
  have wired {w : Wire} : w ∈ d.wires ↔ .edge w.source w.edge.charSet w.edge.target ∈ ds := by
    have listed : d.wires.toList = ds.filterMap Declaration.wire? := records.wires
    simp only [← Array.mem_toList_iff,listed,List.mem_filterMap,Declaration.wireIff,
      exists_eq_right]
  have charSets (k : Nat) : (ds.filterMap Declaration.charSet?)[k]? = d.charSets[k]? := by
    rw [← Array.getElem?_toList]
    exact congrArg (·[k]?) records.charSets.symm
  have states (state : Nat) : (ds.filterMap Declaration.state?)[state]? = d.accepts[state]? := by
    rw [← Array.getElem?_toList]
    exact congrArg (·[state]?) records.accepts.symm
  have symbols (id : Nat) : (ds.filterMap Declaration.symbol?)[id]? = d.symbols[id]? := by
    rw [← Array.getElem?_toList]
    exact congrArg (·[id]?) records.symbols.symm
  refine ⟨fun source ch target => ?_,fun state id accepts => ?_,fun state plain => ?_,?_⟩
  · rw [c.next]
    constructor
    · intro leads
      obtain ⟨w,member,rfl,rfl,set,found,inside⟩ := leads
      exact ⟨w.edge.charSet,set,wired.mp member,(charSets _).trans found,inside⟩
    · intro edge
      obtain ⟨k,set,member,found,inside⟩ := edge
      exact ⟨⟨source,k,target⟩,wired.mpr member,rfl,rfl,set,(charSets k).symm.trans found,inside⟩
  · rw [states] at accepts
    obtain ⟨name,kind,known,_⟩ := wellFormed.accepts state id accepts
    exact ⟨name,kind,(symbols id).trans known,c.accepted.mpr ⟨accepts,known⟩⟩
  · cases found : g.accepted? state with
    | none => rfl
    | some y => exact absurd ((states state).trans (c.accepted.mp found).1) (plain y.id)
  · exact c.initial.trans records.start

theorem Rewired.symbolTable {d d' : Draft} (rewired : d.Rewired d') :
    d.symbolTable = d'.symbolTable := by
  rw [Draft.symbolTable,rewired.symbols]
  rfl

theorem Rewired.alike {d d' : Draft} {g g' : Grammar} (rewired : d.Rewired d')
    (c : Compiled d g) (c' : Compiled d' g') : g.Alike g' := by
  have endSymbol := c.endSymbol
  have errorSymbol := c.errorSymbol
  rw [rewired.symbolTable] at endSymbol errorSymbol
  refine ⟨fun state ch => ?_,fun state => ?_,?_,?_,?_⟩
  · exact Option.ext fun target => by rw [c.next,c'.next,rewired.leads]
  · exact Option.ext fun y => by rw [c.accepted,c'.accepted,rewired.declares]
  · rw [c.initial,c'.initial,rewired.start]
  · exact Except.ok.inj (endSymbol.symm.trans c'.endSymbol)
  · exact Except.ok.inj (errorSymbol.symm.trans c'.errorSymbol)

end Draft

/-! The same tokenizer with another grammar. -/

variable {σ : Type}

def Tokenizer.under (g : Grammar) (t : Tokenizer σ) : Tokenizer σ := {t with grammar := g}

def Turn.under (g : Grammar) (turn : Turn σ) : Turn σ :=
  {turn with tokenizer := turn.tokenizer.under g}

def Step.under (g : Grammar) (step : Step σ) : Step σ :=
  {step with tokenizer := step.tokenizer.under g}

def Tokenizer.Drained.under (g : Grammar) (drained : Drained σ) : Drained σ :=
  {drained with tokenizer := drained.tokenizer.under g}

namespace Tokenizer
variable [CharSource σ] {t : Tokenizer σ}

theorem drainStops (stops : t.iterate = none) : t.drain = ⟨[],[],t⟩ := by
  rw [drain]
  split
  · rfl
  · rename_i goes
    rw [stops] at goes
    cases goes

theorem drainGoes {turn : Turn σ} (goes : t.iterate = some turn) :
    t.drain = ⟨turn.result::turn.tokenizer.drain.results,
      turn.events ++ turn.tokenizer.drain.events,turn.tokenizer.drain.tokenizer⟩ := by
  rw [drain]
  split
  · rename_i stops
    rw [goes] at stops
    cases stops
  · rename_i goes'
    rw [goes] at goes'
    cases goes'
    rfl

end Tokenizer

namespace Grammar.Alike
variable {g g' : Grammar} (alike : g.Alike g')
include alike

theorem start : Walk.start g = Walk.start g' := by
  rw [Walk.start,alike.initial]
  rfl

theorem step : Walk.step g = Walk.step g' := by
  funext w ch
  simp only [Walk.step,alike.next,alike.accepted]

theorem run (w : Walk) (text : List Char) : w.run g text = w.run g' text := by
  rw [Walk.runEqFoldl,Walk.runEqFoldl,alike.step]

variable [CharSource σ]

theorem readOn (w : Walk) (source : σ) (taken : List Char) :
    Input.readOn g w source taken = Input.readOn g' w source taken := by
  fun_induction Input.readOn g w source taken with
  | case1 w source taken stuck => rw [Input.readOnStuck stuck]
  | case2 w source taken going ch source' read ih =>
    rw [Input.readOnCharacter going read,ih,alike.step]
  | case3 w source taken going source' read => rw [Input.readOnFinished going read]
  | case4 w source taken going e source' read => rw [Input.readOnFailure going read]

theorem walk (i : Input σ) : i.walk g = i.walk g' := by
  simp only [Input.walk,alike.start,alike.run,alike.readOn]

theorem longest (i : Input σ) : i.longest g = i.longest g' := by
  simp only [Input.longest,alike.walk]

theorem finishBlock (settings : Settings) (h : Head σ) (c : OpenComment) :
    OpenComment.finishBlock g settings h c = OpenComment.finishBlock g' settings h c := by
  fun_induction OpenComment.finishBlock g settings h c with
  | case1 h c e input longest =>
    rw [OpenComment.finishBlockFails ((alike.longest _).symm.trans longest)]
  | case2 h c found input longest h' =>
    rename_i reaction
    rw [OpenComment.finishBlockFound ((alike.longest _).symm.trans longest),reaction]
  | case3 h c found input longest h' length =>
    rename_i reaction
    rw [OpenComment.finishBlockFound ((alike.longest _).symm.trans longest),reaction]
  | case4 h c found input longest h' length depth =>
    rename_i reaction ih
    rw [OpenComment.finishBlockFound ((alike.longest _).symm.trans longest),reaction,ih]

variable {t : Tokenizer σ} (grammar : t.grammar = g)
include grammar

theorem finishComment (c : OpenComment) :
    (t.under g').finishComment c = (t.finishComment c).under g' := by
  have finishing {α : Type} (message : Message) (events : α → OpenComment → List Event)
      (outcome : Except ReadError α × Head σ × OpenComment) :
      (t.under g').finishing message events outcome =
        (t.finishing message events outcome).under g' := by
    obtain ⟨_ | _,_,_⟩ := outcome <;> rfl
  by_cases isLine : c.symbol.kind = .commentLineStart
  · rw [Tokenizer.finishCommentLine isLine,Tokenizer.finishCommentLine isLine]
    exact finishing _ _ _
  · rw [Tokenizer.finishCommentBlock isLine,Tokenizer.finishCommentBlock isLine,grammar,
      alike.finishBlock]
    exact finishing _ _ _

theorem accept (found : Longest) : (t.under g').accept found = (t.accept found).under g' := by
  cases found with
  | atEnd =>
    simp only [Tokenizer.accept,Tokenizer.atEnd,Tokenizer.under,Turn.under,grammar,alike.endSymbol]
    rfl
  | nothing =>
    simp only [Tokenizer.accept,Tokenizer.delivered,Tokenizer.under,Turn.under,grammar,
      alike.errorSymbol,Tokenizer.position]
  | found m =>
    simp only [Tokenizer.accept]
    split
    · exact alike.finishComment (t := {t with head := t.head.consume m.length}) grammar _
    · rfl

theorem call : (t.under g').next = t.next.under g' := by
  cases parked : t.openComment with
  | some c =>
    rw [Tokenizer.nextParked parked,Tokenizer.nextParked (t := t.under g') parked]
    exact alike.finishComment grammar c
  | none =>
    cases done : t.exhausted with
    | true =>
      rw [Tokenizer.nextExhausted parked done,
        Tokenizer.nextExhausted (t := t.under g') parked done]
      exact alike.accept grammar .atEnd
    | false =>
      cases longest : t.head.input.longest g with
      | mk answer input =>
        have longest' := (alike.longest t.head.input).symm.trans longest
        rw [Tokenizer.nextScanning parked done (grammar ▸ longest),
          Tokenizer.nextScanning (t := t.under g') parked done longest']
        cases answer with
        | error e => rfl
        | ok found => exact alike.accept (t := {t with head := {t.head with input}}) grammar found

theorem iterate : (t.under g').iterate = t.iterate.map (Turn.under g') := by
  have done : (t.under g').isDone = t.isDone := rfl
  simp only [Tokenizer.iterate,done,alike.call grammar]
  split <;> rfl

theorem perform (op : Operation) : (t.under g').perform op = (t.perform op).under g' := by
  cases op with
  | next => simp only [Tokenizer.perform,alike.call grammar]; rfl
  | configure settings => rfl
  | iterate =>
    simp only [Tokenizer.perform,alike.iterate grammar]
    cases t.iterate <;> rfl

theorem session (ops : List Operation) :
    (t.under g').session ops = (t.session ops).map (Step.under g') := by
  induction ops generalizing t with
  | nil => rfl
  | cons op ops ih =>
    have kept : (t.perform op).tokenizer.grammar = g := (t.performGrammar op).trans grammar
    simp only [Tokenizer.session,List.map_cons,alike.perform grammar]
    rw [← ih kept]
    rfl

theorem drain : (t.under g').drain = t.drain.under g' := by
  fun_induction Tokenizer.drain t with
  | case1 t stops =>
    refine Tokenizer.drainStops ?_
    rw [alike.iterate grammar,stops]
    rfl
  | case2 t turn goes rest ih =>
    have goes' : (t.under g').iterate = some (turn.under g') := by
      rw [alike.iterate grammar,goes]
      rfl
    have kept := t.performGrammar .iterate
    simp only [Tokenizer.perform,goes] at kept
    have after : (turn.under g').tokenizer.drain = rest.under g' := ih (kept.trans grammar)
    rw [Tokenizer.drainGoes goes',after]
    rfl

omit grammar in
theorem tokenize (text : String) : Munch.tokenize g text = Munch.tokenize g' text := by
  have drained := alike.drain (t := .ofSource g (TextSource.ofString text)) rfl
  have results := congrArg Tokenizer.Drained.results drained
  exact congrArg (·.mapM id) results.symm

end Grammar.Alike

/- Whatever is scanned, and in whatever state of a tokenizer, the one grammar does what the
other does. -/
structure Grammar.Interchangeable (g g' : Grammar) : Prop where
  alike : g.Alike g'
  call : ∀ {σ : Type} [CharSource σ] (t : Tokenizer σ), t.grammar = g →
    (t.under g').next = t.next.under g'
  session : ∀ {σ : Type} [CharSource σ] (source : σ) (ops : List Operation),
    (Tokenizer.ofSource g' source).session ops =
      ((Tokenizer.ofSource g source).session ops).map (Step.under g')
  drain : ∀ {σ : Type} [CharSource σ] (source : σ) (settings : Settings),
    ((Tokenizer.ofSource g' source).configure settings).drain =
      ((Tokenizer.ofSource g source).configure settings).drain.under g'
  tokenize : ∀ text, tokenize g text = tokenize g' text

theorem Grammar.Alike.interchangeable {g g' : Grammar} (alike : g.Alike g') :
    g.Interchangeable g' where
  alike := alike
  call _ grammar := alike.call grammar
  session source ops := alike.session (t := .ofSource g source) rfl ops
  drain source settings := alike.drain (t := (Tokenizer.ofSource g source).configure settings) rfl
  tokenize := alike.tokenize

namespace Draft

theorem wiredExactly (name : String) (ds : List Declaration) :
    (∀ g, (declared name ds).compile = .ok g → g.Follows ds) ∧
    ∀ name' ds', Declaration.Reordered ds ds' →
      ((∃ g, (declared name ds).compile = .ok g) ↔ ∃ g, (declared name' ds').compile = .ok g) ∧
      ∀ g g', (declared name ds).compile = .ok g → (declared name' ds').compile = .ok g' →
        g.Interchangeable g' := by
  refine ⟨fun g compiles => ?_,fun name' ds' reordered => ?_⟩
  · exact (compiled compiles).follows (compileSucceeds.mp ⟨g,compiles⟩)
  · have rewired := declaredRewired name name' reordered
    refine ⟨?_,fun g g' compiles compiles' => ?_⟩
    · rw [compileSucceeds,compileSucceeds]
      exact rewired.wellFormed
    · exact (rewired.alike (compiled compiles) (compiled compiles')).interchangeable

/- The same in two orders: each sort by itself, and edges before what they name. -/
def sortwise : List Declaration :=
  [.symbol "End" .endOfInput,.symbol "Error" .error,.symbol "word" .terminal,
    .charSet (.ofString "ab"),.charSet (.ofString "c"),.state none,.state (some 2),
    .edge 0 0 1,.edge 1 0 1,.edge 1 1 0,.start 0]

def edgewise : List Declaration :=
  [.edge 1 1 0,.edge 0 0 1,.start 1,.symbol "End" .endOfInput,.state none,
    .charSet (.ofString "ab"),.edge 1 0 1,.symbol "Error" .error,.state (some 2),
    .symbol "word" .terminal,.charSet (.ofString "c"),.start 0]

theorem wiredExactlySample : ∃ g g',
    (declared "sortwise" sortwise).compile = .ok g ∧
    (declared "edgewise" edgewise).compile = .ok g' ∧ g.Follows sortwise ∧
    g.Interchangeable g' := by
  have reordered : Declaration.Reordered sortwise edgewise :=
    ⟨rfl,rfl,rfl,by decide,rfl⟩
  obtain ⟨g,compiles⟩ : ∃ g, (declared "sortwise" sortwise).compile = .ok g :=
    compilesOk (by cbv)
  obtain ⟨follows,others⟩ := wiredExactly "sortwise" sortwise
  obtain ⟨both,interchangeable⟩ := others "edgewise" edgewise reordered
  obtain ⟨g',compiles'⟩ := both.mp ⟨g,compiles⟩
  exact ⟨g,g',compiles,compiles',follows g compiles,interchangeable g g' compiles compiles'⟩

end Draft
end Munch
