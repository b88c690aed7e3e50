import Munch.Proofs.Overlap

/-! When a draft compiles. It comes from declarations made one by one, and it is well
formed when the end and the error symbol are declared once each, there is a state, every
id resolves, states accept lexical symbols only and no two edges of a state share a
character. Compiling makes its checks in a fixed order. Main statement: a draft compiles
exactly when it is well formed, and otherwise the first check that fails is reported. -/
namespace Munch

inductive Declaration where
  | symbol (name : String) (kind : SymbolKind)
  | charSet (set : CharSet)
  | state (accept : Option Nat)
  | edge (source charSet target : Nat)
  | start (state : Nat)
  deriving DecidableEq, Repr

namespace Draft

def declare (d : Draft) : Declaration → Draft
  | .symbol name kind => (d.addSymbol name kind).2
  | .charSet set => (d.addCharSet set).2
  | .state accept => (d.addState accept).2
  | .edge source charSet target => d.addEdge source charSet target
  | .start state => d.startAt state

def declared (name : String) (ds : List Declaration) : Draft := ds.foldl declare {name := name}

/- What a draft keeps of the declarations: those of each sort in their order, and of the
states to start in the last one. -/
structure Records (ds : List Declaration) (d : Draft) : Prop where
  symbols : d.symbols.toList = ds.filterMap fun
    | .symbol name kind => some (name,kind)
    | _ => none
  charSets : d.charSets.toList = ds.filterMap fun
    | .charSet set => some set
    | _ => none
  accepts : d.accepts.toList = ds.filterMap fun
    | .state accept => some accept
    | _ => none
  wires : d.wires.toList = ds.filterMap fun
    | .edge source charSet target => some ⟨source,charSet,target⟩
    | _ => none
  start : d.start = ((ds.filterMap fun
    | .start state => some state
    | _ => none).getLast?).getD 0

theorem Records.snoc {ds : List Declaration} {d : Draft} (records : Records ds d)
    (next : Declaration) : Records (ds ++ [next]) (d.declare next) := by
  obtain ⟨symbols,charSets,accepts,wires,start⟩ := records
  unfold Draft.start at start
  refine ⟨?_,?_,?_,?_,?_⟩ <;> rw [List.filterMap_append]
  · rw [← symbols]
    cases next <;> simp [declare,addSymbol,addCharSet,addState,addEdge,startAt]
  · rw [← charSets]
    cases next <;> simp [declare,addSymbol,addCharSet,addState,addEdge,startAt]
  · rw [← accepts]
    cases next <;> simp [declare,addSymbol,addCharSet,addState,addEdge,startAt]
  · rw [← wires]
    cases next <;> simp [declare,addSymbol,addCharSet,addState,addEdge,startAt]
  · cases next <;> simp [declare,addSymbol,addCharSet,addState,addEdge,startAt,Draft.start,start]

theorem Records.extend {ds : List Declaration} {d : Draft} (records : Records ds d)
    (more : List Declaration) : Records (ds ++ more) (more.foldl declare d) := by
  induction more generalizing ds d with
  | nil => rw [List.append_nil]; exact records
  | cons next rest ih =>
    rw [List.append_cons]
    exact ih (records.snoc next)

theorem declaredRecords (name : String) (ds : List Declaration) :
    Records ds (declared name ds) := by
  have start : Records [] (Draft.mk name #[] #[] #[] #[] none) := ⟨rfl,rfl,rfl,rfl,rfl⟩
  exact start.extend ds

def named (d : Draft) (kind : SymbolKind) : List String :=
  (d.symbols.toList.filter fun s => s.2 = kind).map Prod.fst

structure WellFormed (d : Draft) : Prop where
  endSymbol : (d.named .endOfInput).length = 1
  errorSymbol : (d.named .error).length = 1
  states : 0 < d.accepts.size
  edges : ∀ w ∈ d.wires, w.source < d.accepts.size ∧ w.edge.target < d.accepts.size ∧
    w.edge.charSet < d.charSets.size
  accepts : ∀ (state id : Nat), d.accepts[state]? = some (some id) → ∃ name kind,
    d.symbols[id]? = some (name,kind) ∧ kind ≠ .nonterminal ∧ kind ≠ .endOfInput ∧ kind ≠ .error
  exclusive : ∀ state ch, ¬ d.Shares state ch
  start : d.start < d.accepts.size

inductive Check where
  | sole (kind : SymbolKind)
  | states
  | source (wire : Wire)
  | accept (state : Nat)
  | target (edge : Edge)
  | charSet (edge : Edge)
  | overlap (state : Nat)
  | start
  deriving DecidableEq, Repr

/- The order in which faults are looked for. -/
def edgeAgenda (e : Edge) : List Check := [.target e,.charSet e]

def stateAgenda (d : Draft) (state : Nat) : List Check :=
  .accept state :: (d.edgesOf state).flatMap edgeAgenda ++ [.overlap state]

def agenda (d : Draft) : List Check :=
  .sole .endOfInput :: .sole .error :: .states :: (d.wires.toList.map .source ++
    ((List.range d.accepts.size).flatMap d.stateAgenda ++ [.start]))

inductive Fails (d : Draft) : Check → Cause → Prop where
  | missing {kind} (none : d.named kind = []) : Fails d (.sole kind) (.missingSymbol kind)
  | several {kind first second rest} (named : d.named kind = first::second::rest) :
      Fails d (.sole kind) (.duplicateSymbol kind first second)
  | noStates (none : d.accepts.size = 0) : Fails d .states .noStates
  | source {w} (unknown : d.accepts.size ≤ w.source) : Fails d (.source w) (.unknownState w.source)
  | unknownSymbol {state id : Nat} (accepts : d.accepts[state]? = some (some id))
      (unknown : d.symbols.size ≤ id) : Fails d (.accept state) (.unknownSymbol id)
  | unacceptable {state id : Nat} {name kind} (accepts : d.accepts[state]? = some (some id))
      (known : d.symbols[id]? = some (name,kind))
      (barred : kind = .nonterminal ∨ kind = .endOfInput ∨ kind = .error) :
      Fails d (.accept state) (.unacceptableSymbol name kind)
  | target {e} (unknown : d.accepts.size ≤ e.target) : Fails d (.target e) (.unknownState e.target)
  | charSet {e} (unknown : d.charSets.size ≤ e.charSet) :
      Fails d (.charSet e) (.unknownCharSet e.charSet)
  | overlap {state ch} (shares : d.Shares state ch)
      (least : ∀ other, d.Shares state other → ch.toNat ≤ other.toNat) :
      Fails d (.overlap state) (.overlappingEdges state ch)
  | start (unknown : d.accepts.size ≤ d.start) : Fails d .start (.unknownState d.start)

def Passes (d : Draft) (check : Check) : Prop := ∀ cause, ¬ d.Fails check cause

/- The error names the first check of an agenda that fails. -/
def FirstFault (d : Draft) (checks : List Check) (e : Error) : Prop :=
  ∃ before check after cause, checks = before ++ check::after ∧ (∀ c ∈ before, d.Passes c) ∧
    d.Fails check cause ∧ e = cause

def Settles {α : Type} (d : Draft) (checks : List Check) : Except Error α → Prop
  | .ok _ => ∀ c ∈ checks, d.Passes c
  | .error e => d.FirstFault checks e

section
variable {α β : Type} {d : Draft}

theorem FirstFault.append {checks : List Check} {e : Error} (fault : d.FirstFault checks e)
    (more : List Check) : d.FirstFault (checks ++ more) e := by
  obtain ⟨before,check,after,cause,split,pass,fails,same⟩ := fault
  refine ⟨before,check,after ++ more,cause,?_,pass,fails,same⟩
  rw [split,List.append_assoc,List.cons_append]

theorem FirstFault.behind {checks more : List Check} {e : Error}
    (passed : ∀ c ∈ checks, d.Passes c) (fault : d.FirstFault more e) :
    d.FirstFault (checks ++ more) e := by
  obtain ⟨before,check,after,cause,split,pass,fails,same⟩ := fault
  refine ⟨checks ++ before,check,after,cause,?_,?_,fails,same⟩
  · rw [split,List.append_assoc]
  · intro c member
    rcases List.mem_append.mp member with early | late
    · exact passed c early
    · exact pass c late

theorem settlesBehind {checks more : List Check} {x : Except Error α}
    (passed : ∀ c ∈ checks, d.Passes c) (settles : d.Settles more x) :
    d.Settles (checks ++ more) x := by
  cases x with
  | error e => exact FirstFault.behind passed settles
  | ok a =>
    intro c member
    rcases List.mem_append.mp member with early | late
    · exact passed c early
    · exact settles c late

theorem settlesBind {checks more : List Check} {x : Except Error α} {f : α → Except Error β}
    (first : d.Settles checks x) (rest : ∀ a, x = .ok a → d.Settles more (f a)) :
    d.Settles (checks ++ more) (x >>= f) := by
  cases x with
  | error e => exact FirstFault.append first more
  | ok a => exact settlesBehind first (rest a rfl)

theorem settlesThen {check : Check} {more : List Check} {x : Except Error α}
    {f : α → Except Error β} (first : d.Settles [check] x)
    (rest : ∀ a, x = .ok a → d.Settles more (f a)) : d.Settles (check::more) (x >>= f) :=
  settlesBind first rest

theorem settlesOk (d : Draft) (a : α) : d.Settles [] (.ok a) := by
  intro c member
  cases member

theorem settlesMapM {agenda : α → List Check} {check : α → Except Error β} {l : List α}
    (each : ∀ a ∈ l, d.Settles (agenda a) (check a)) :
    d.Settles (l.flatMap agenda) (l.mapM check) := by
  induction l with
  | nil => exact settlesOk d []
  | cons a rest ih =>
    obtain ⟨first,others⟩ := List.forall_mem_cons.mp each
    rw [List.mapM_cons,List.flatMap_cons]
    refine settlesBind first fun b _ => ?_
    rw [← List.append_nil (rest.flatMap agenda)]
    exact settlesBind (ih others) fun bs _ => settlesOk d (b::bs)

theorem settlesForM {agenda : α → List Check} {check : α → Except Error Unit} {l : List α}
    (each : ∀ a ∈ l, d.Settles (agenda a) (check a)) :
    d.Settles (l.flatMap agenda) (l.forM check) := by
  induction l with
  | nil => exact settlesOk d ()
  | cons a rest ih =>
    obtain ⟨first,others⟩ := List.forall_mem_cons.mp each
    exact settlesBind first fun _ _ => ih others

theorem FirstFault.here {check : Check} {cause : Cause} (fails : d.Fails check cause)
    (more : List Check) : d.FirstFault (check::more) cause :=
  ⟨[],check,more,cause,rfl,nofun,fails,rfl⟩

theorem settlesFault {check : Check} {cause : Cause} (fails : d.Fails check cause) :
    d.Settles [check] (.error cause : Except Error α) :=
  FirstFault.here fails []

theorem settlesPass {check : Check} (passes : d.Passes check) (a : α) :
    d.Settles [check] (.ok a) := by
  intro c member
  rw [List.mem_singleton.mp member]
  exact passes

theorem settlesAfter {check : Check} {more : List Check} {x : Except Error α}
    (passes : d.Passes check) (settles : d.Settles more x) : d.Settles (check::more) x :=
  settlesBehind (settlesPass passes ()) settles

end

/-! Each step of compiling makes its part of the agenda. -/

theorem namedTable (d : Draft) (kind : SymbolKind) :
    d.named kind = (d.symbolTable.toList.filter fun s => s.kind = kind).map Symbol.name := by
  have same : d.symbols.toList = d.symbolTable.toList.map fun s => (s.name,s.kind) := by
    apply List.ext_getElem
    · simp [symbolTable]
    · intro i h h'
      simp [symbolTable]
  rw [named,same,List.filter_map,List.map_map]
  rfl

theorem soleSettles (d : Draft) (kind : SymbolKind) :
    d.Settles [.sole kind] (sole d.symbolTable kind) := by
  have named := d.namedTable kind
  unfold sole
  split
  · rename_i none
    rw [none] at named
    exact settlesFault (.missing named)
  · rename_i s one
    rw [one] at named
    apply settlesPass
    intro cause fails
    cases fails with
    | missing none => rw [named] at none; cases none
    | several several => rw [named] at several; cases several
  · rename_i a b rest many
    rw [many] at named
    exact settlesFault (.several named)

theorem sourceSettles (d : Draft) (w : Wire) : d.Settles [.source w] (d.checkSource w) := by
  unfold checkSource
  split
  · rename_i known
    apply settlesPass
    intro cause fails
    cases fails with
    | source unknown => omega
  · rename_i unknown
    exact settlesFault (.source (Nat.le_of_not_lt unknown))

theorem barredIff (kind : SymbolKind) : kind.isLexical = false ↔
    kind = .nonterminal ∨ kind = .endOfInput ∨ kind = .error := by
  cases kind <;> simp [SymbolKind.isLexical]

theorem acceptSettles {d : Draft} {state : Nat} {accept : Option Nat}
    (declared : d.accepts[state]? = some accept) :
    d.Settles [.accept state] (d.checkAccept accept) := by
  cases accept with
  | none =>
    apply settlesPass
    intro cause fails
    cases fails with
    | unknownSymbol accepts => rw [declared] at accepts; cases accepts
    | unacceptable accepts => rw [declared] at accepts; cases accepts
  | some id =>
    dsimp only [checkAccept]
    split
    · rename_i unknown
      exact settlesFault (.unknownSymbol declared (Array.getElem?_eq_none_iff.mp unknown))
    · rename_i name kind known
      split
      · rename_i lexical
        apply settlesPass
        intro cause fails
        cases fails with
        | unknownSymbol accepts unknown =>
          cases declared.symm.trans accepts
          rw [Array.getElem?_eq_none unknown] at known
          cases known
        | unacceptable accepts known' barred =>
          cases declared.symm.trans accepts
          cases known.symm.trans known'
          rw [(barredIff kind).mpr barred] at lexical
          cases lexical
      · rename_i refused
        exact settlesFault (.unacceptable declared known
          ((barredIff kind).mp (Bool.eq_false_iff.mpr refused)))

theorem edgeSettles (d : Draft) (e : Edge) : d.Settles (edgeAgenda e) (d.resolveEdge e) := by
  unfold resolveEdge
  split
  · rename_i known
    have target : d.Passes (.target e) := by
      intro cause fails
      cases fails with
      | target unknown => omega
    refine settlesAfter target ?_
    split
    · rename_i s found
      apply settlesPass
      intro cause fails
      cases fails with
      | charSet unknown => rw [Array.getElem?_eq_none unknown] at found; cases found
    · rename_i unknown
      exact settlesFault (.charSet (Array.getElem?_eq_none_iff.mp unknown))
  · rename_i unknown
    exact FirstFault.here (.target (Nat.le_of_not_lt unknown)) _

theorem overlapSettles {d : Draft} {state : Nat} {sets : List CharSet}
    (resolves : (d.edgesOf state).mapM d.resolveEdge = .ok sets) :
    d.Settles [.overlap state] (match sharedChar sets with
      | some ch => .error (Cause.overlappingEdges state ch : Error)
      | none => .ok ()) := by
  split
  · rename_i ch found
    obtain ⟨shared,least⟩ := sharedCharSome found
    exact settlesFault (.overlap ((sharesIff resolves).mpr shared)
      fun other shares => least other ((sharesIff resolves).mp shares))
  · rename_i none
    apply settlesPass
    intro cause fails
    cases fails with
    | overlap shares =>
      refine (sharesIff resolves).mp shares ?_
      exact (sharedCharNone none).imp fun disjoint => disjoint _

theorem stateSettles {d : Draft} {state : Nat} {accept : Option Nat}
    (declared : d.accepts[state]? = some accept) :
    d.Settles (d.stateAgenda state) (d.checkState ⟨state,accept,d.edgesOf state⟩) := by
  refine settlesThen (acceptSettles declared) fun _ _ => ?_
  refine settlesBind (settlesMapM fun e _ => d.edgeSettles e) fun sets resolves => ?_
  exact overlapSettles resolves

theorem startSettles (d : Draft) : d.Settles [.start] d.checkInitial := by
  unfold checkInitial
  dsimp only
  split
  · rename_i known
    apply settlesPass
    intro cause fails
    cases fails with
    | start unknown => unfold start at unknown; omega
  · rename_i unknown
    exact settlesFault (.start (Nat.le_of_not_lt unknown))

theorem stateIds (d : Draft) : d.stateTable.toList.map State.id = List.range d.accepts.size := by
  apply List.ext_getElem
  · simp [stateTable]
  · intro i h h'
    simp [stateTable]

theorem statesSettle (d : Draft) :
    d.Settles ((List.range d.accepts.size).flatMap d.stateAgenda)
      (d.stateTable.toList.forM d.checkState) := by
  rw [← stateIds,List.flatMap_map]
  apply settlesForM
  intro s member
  obtain ⟨i,h,rfl⟩ := List.getElem_of_mem member
  have within : i < d.accepts.size := by simpa [stateTable] using h
  have row : d.stateTable.toList[i] = ⟨i,d.accepts[i],d.edgesOf i⟩ := by simp [stateTable]
  rw [row]
  exact stateSettles (Array.getElem?_eq_getElem within)

theorem compileSettles (d : Draft) : d.Settles d.agenda d.compile := by
  unfold compile agenda
  refine settlesThen (soleSettles d .endOfInput) fun endSymbol _ => ?_
  refine settlesThen (soleSettles d .error) fun errorSymbol _ => ?_
  split
  · rename_i empty
    have none : d.accepts.size = 0 := by simpa using empty
    exact FirstFault.here (.noStates none) _
  · rename_i some
    have states : d.Passes .states := by
      intro cause fails
      cases fails with
      | noStates none => exact some (by simpa using none)
    refine settlesAfter states ?_
    rw [List.map_eq_flatMap]
    refine settlesBind (settlesForM fun w _ => d.sourceSettles w) fun _ _ => ?_
    refine settlesBind d.statesSettle fun _ _ => ?_
    exact settlesThen d.startSettles fun _ _ => settlesOk d _

/-! A draft is well formed when all of the agenda passes. -/

theorem memAgenda {d : Draft} {c : Check} : c ∈ d.agenda ↔
    c = .sole .endOfInput ∨ c = .sole .error ∨ c = .states ∨ (∃ w ∈ d.wires, c = .source w) ∨
      (∃ state < d.accepts.size, c ∈ d.stateAgenda state) ∨ c = .start := by
  simp only [agenda,List.mem_cons,List.mem_append,List.mem_map,List.mem_flatMap,List.mem_range,
    Array.mem_toList_iff,List.not_mem_nil,or_false,eq_comm]

theorem memStateAgenda {d : Draft} {state : Nat} {c : Check} : c ∈ d.stateAgenda state ↔
    c = .accept state ∨
      (∃ w ∈ d.wires, w.source = state ∧ (c = .target w.edge ∨ c = .charSet w.edge)) ∨
      c = .overlap state := by
  simp only [stateAgenda,edgeAgenda,edgesOf,List.cons_append,List.mem_cons,List.mem_append,
    List.mem_flatMap,List.mem_map,List.mem_filter,Array.mem_toList_iff,decide_eq_true_eq,
    List.not_mem_nil,or_false]
  constructor
  · intro h
    rcases h with accept | ⟨e,⟨w,⟨wired,leaves⟩,rfl⟩,check⟩ | overlap
    · exact .inl accept
    · exact .inr (.inl ⟨w,wired,leaves,check⟩)
    · exact .inr (.inr overlap)
  · intro h
    rcases h with accept | ⟨w,wired,leaves,check⟩ | overlap
    · exact .inl accept
    · exact .inr (.inl ⟨w.edge,⟨w,⟨wired,leaves⟩,rfl⟩,check⟩)
    · exact .inr (.inr overlap)

/- Where some character is shared, there is a least one. -/
theorem sharesFails {d : Draft} {state : Nat} {ch : Char} (shares : d.Shares state ch) :
    ∃ cause, d.Fails (.overlap state) cause := by
  generalize size : ch.toNat = n
  induction n using Nat.strongRecOn generalizing ch with
  | ind n ih =>
    by_cases least : ∀ other, d.Shares state other → ch.toNat ≤ other.toNat
    · exact ⟨_,.overlap shares least⟩
    · obtain ⟨other,smaller⟩ := Classical.not_forall.mp least
      obtain ⟨more,below⟩ := Classical.not_imp.mp smaller
      exact ih other.toNat (by omega) more rfl

theorem WellFormed.passes {d : Draft} (wellFormed : d.WellFormed) : ∀ c ∈ d.agenda, d.Passes c := by
  intro c member cause fails
  have soleNamed {kind : SymbolKind} (member : Check.sole kind ∈ d.agenda) :
      (d.named kind).length = 1 := by
    simp only [memAgenda,memStateAgenda,Check.sole.injEq,reduceCtorEq,and_false,or_self,
      exists_false,or_false] at member
    rcases member with same | same
    · rw [same]; exact wellFormed.endSymbol
    · rw [same]; exact wellFormed.errorSymbol
  have wiredEdge {e : Edge} (member : Check.target e ∈ d.agenda ∨ Check.charSet e ∈ d.agenda) :
      e.target < d.accepts.size ∧ e.charSet < d.charSets.size := by
    simp only [memAgenda,memStateAgenda,Check.target.injEq,Check.charSet.injEq,reduceCtorEq,
      and_false,or_false,false_or,exists_false] at member
    have wired : ∃ w ∈ d.wires, e = w.edge := by
      rcases member with ⟨_,_,w,wired,_,same⟩ | ⟨_,_,w,wired,_,same⟩ <;> exact ⟨w,wired,same⟩
    obtain ⟨w,wired,rfl⟩ := wired
    exact (wellFormed.edges w wired).2
  cases fails with
  | missing none =>
    have one := soleNamed member
    rw [none] at one
    cases one
  | several several =>
    have one := soleNamed member
    rw [several] at one
    cases one
  | noStates none => have := wellFormed.states; omega
  | @source w unknown =>
    have wired : w ∈ d.wires := by simpa [memAgenda,memStateAgenda] using member
    have := (wellFormed.edges w wired).1
    omega
  | unknownSymbol accepts unknown =>
    obtain ⟨name,kind,known,_⟩ := wellFormed.accepts _ _ accepts
    rw [Array.getElem?_eq_none unknown] at known
    cases known
  | unacceptable accepts known barred =>
    obtain ⟨name,kind,known',proper⟩ := wellFormed.accepts _ _ accepts
    cases known.symm.trans known'
    rcases barred with same | same | same
    · exact proper.1 same
    · exact proper.2.1 same
    · exact proper.2.2 same
  | target unknown => have := (wiredEdge (.inl member)).1; omega
  | charSet unknown => have := (wiredEdge (.inr member)).2; omega
  | overlap shares => exact wellFormed.exclusive _ _ shares
  | start unknown => have := wellFormed.start; omega

theorem wellFormedOf {d : Draft} (passes : ∀ c ∈ d.agenda, d.Passes c) : d.WellFormed := by
  have soleNamed {kind : SymbolKind} (pass : d.Passes (.sole kind)) :
      (d.named kind).length = 1 := by
    cases named : d.named kind with
    | nil => exact absurd (.missing named) (pass _)
    | cons first rest =>
      cases rest with
      | nil => rfl
      | cons second rest => exact absurd (.several named) (pass _)
  have sources : ∀ w ∈ d.wires, w.source < d.accepts.size := by
    intro w wired
    have pass := passes (.source w) (memAgenda.mpr (by simp [wired]))
    exact Nat.lt_of_not_le fun unknown => pass _ (.source unknown)
  have ofState {state : Nat} (known : state < d.accepts.size) {c : Check}
      (member : c ∈ d.stateAgenda state) : d.Passes c :=
    passes c (memAgenda.mpr (.inr (.inr (.inr (.inr (.inl ⟨state,known,member⟩))))))
  refine ⟨soleNamed (passes _ (memAgenda.mpr (by simp))),
    soleNamed (passes _ (memAgenda.mpr (by simp))),?_,?_,?_,?_,?_⟩
  · have pass := passes .states (memAgenda.mpr (by simp))
    exact Nat.pos_of_ne_zero fun none => pass _ (.noStates none)
  · intro w wired
    have known := sources w wired
    refine ⟨known,?_,?_⟩
    · have pass := ofState known (memStateAgenda.mpr (.inr (.inl ⟨w,wired,rfl,.inl rfl⟩)))
      exact Nat.lt_of_not_le fun unknown => pass _ (.target unknown)
    · have pass := ofState known (memStateAgenda.mpr (.inr (.inl ⟨w,wired,rfl,.inr rfl⟩)))
      exact Nat.lt_of_not_le fun unknown => pass _ (.charSet unknown)
  · intro state id accepts
    have pass := ofState (Array.getElem?_eq_some_iff.mp accepts).1 (memStateAgenda.mpr (.inl rfl))
    cases known : d.symbols[id]? with
    | none => exact absurd (.unknownSymbol accepts (Array.getElem?_eq_none_iff.mp known)) (pass _)
    | some symbol =>
      obtain ⟨name,kind⟩ := symbol
      have proper := fun barred => pass _ (.unacceptable accepts known barred)
      exact ⟨name,kind,rfl,fun h => proper (.inl h),fun h => proper (.inr (.inl h)),
        fun h => proper (.inr (.inr h))⟩
  · intro state ch shares
    obtain ⟨i,_,v,_,_,found,_,leaves,_⟩ := id shares
    have known := sources v (Array.mem_of_getElem? found)
    rw [leaves] at known
    obtain ⟨cause,fails⟩ := sharesFails shares
    exact ofState known (memStateAgenda.mpr (.inr (.inr rfl))) cause fails
  · have pass := passes .start (memAgenda.mpr (by simp))
    exact Nat.lt_of_not_le fun unknown => pass _ (.start unknown)

theorem wellFormedIff {d : Draft} : d.WellFormed ↔ ∀ c ∈ d.agenda, d.Passes c :=
  ⟨WellFormed.passes,wellFormedOf⟩

theorem Fails.unique {d : Draft} {check : Check} {a b : Cause} (one : d.Fails check a)
    (two : d.Fails check b) : a = b := by
  cases one with
  | missing none =>
    cases two with
    | missing => rfl
    | several several => rw [none] at several; cases several
  | several several =>
    cases two with
    | missing none => rw [none] at several; cases several
    | several others => rw [several] at others; cases others; rfl
  | noStates => cases two; rfl
  | source => cases two; rfl
  | unknownSymbol accepts unknown =>
    cases two with
    | unknownSymbol accepts' => cases accepts.symm.trans accepts'; rfl
    | unacceptable accepts' known =>
      cases accepts.symm.trans accepts'
      rw [Array.getElem?_eq_none unknown] at known
      cases known
  | unacceptable accepts known =>
    cases two with
    | unknownSymbol accepts' unknown =>
      cases accepts.symm.trans accepts'
      rw [Array.getElem?_eq_none unknown] at known
      cases known
    | unacceptable accepts' known' =>
      cases accepts.symm.trans accepts'
      cases known.symm.trans known'
      rfl
  | target => cases two; rfl
  | charSet => cases two; rfl
  | overlap shares least =>
    cases two with
    | overlap shares' least' =>
      rw [Char.toNat_inj.mp (Nat.le_antisymm (least _ shares') (least' _ shares))]
  | start => cases two; rfl

theorem FirstFault.unique {d : Draft} {checks : List Check} {a b : Error}
    (one : d.FirstFault checks a) (two : d.FirstFault checks b) : a = b := by
  obtain ⟨before,check,after,cause,split,pass,fails,rfl⟩ := one
  obtain ⟨before',check',after',cause',split',pass',fails',rfl⟩ := two
  -- The longer of the two passing beginnings would contain the check that fails.
  have same := split.symm.trans split'
  rcases List.append_eq_append_iff.mp same with ⟨gap,longer,rest⟩ | ⟨gap,longer,rest⟩
  · cases gap with
    | nil => cases rest; rw [fails.unique fails']
    | cons c gap =>
      cases rest
      exact absurd fails (pass' _ (by rw [longer]; simp) _)
  · cases gap with
    | nil => cases rest; rw [fails.unique fails']
    | cons c gap =>
      cases rest
      exact absurd fails' (pass _ (by rw [longer]; simp) _)

theorem compileFails {d : Draft} {e : Error} : d.compile = .error e ↔ d.FirstFault d.agenda e := by
  have settles := compileSettles d
  cases result : d.compile with
  | ok g =>
    rw [result] at settles
    refine iff_of_false (fun h => by cases h) fun fault => ?_
    obtain ⟨before,check,after,cause,split,_,fails,_⟩ := fault
    exact settles check (by rw [split]; simp) cause fails
  | error e' =>
    rw [result] at settles
    constructor
    · intro h; cases h; exact settles
    · intro fault; rw [settles.unique fault]

theorem compileSucceeds {d : Draft} : (∃ g, d.compile = .ok g) ↔ d.WellFormed := by
  have settles := compileSettles d
  rw [wellFormedIff]
  cases result : d.compile with
  | ok g =>
    rw [result] at settles
    exact iff_of_true ⟨g,rfl⟩ settles
  | error e =>
    rw [result] at settles
    refine iff_of_false (fun h => by obtain ⟨g,h⟩ := h; cases h) fun passes => ?_
    obtain ⟨before,check,after,cause,split,_,fails,_⟩ := settles
    exact passes check (by rw [split]; simp) cause fails

/- Whatever has been declared, it compiles exactly when it is well formed, and otherwise
the first fault in the order of the agenda is the one reported. -/
theorem declaredVerdict (name : String) (ds : List Declaration) :
    let d := declared name ds
    Records ds d ∧ ((∃ g, d.compile = .ok g) ↔ d.WellFormed) ∧
      ∀ e, d.compile = .error e ↔ d.FirstFault d.agenda e :=
  ⟨declaredRecords name ds,compileSucceeds,fun _ => compileFails⟩

end Draft
end Munch
