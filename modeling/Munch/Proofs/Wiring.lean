import Mathlib.Data.List.Permutation
import Munch.Grammar.Draft
import Munch.Proofs.LongestMatch

/-! What a draft wires: a character leads from a state to another along a wire whose
set contains it, a text spells a path of wires, and a state is declared to accept a
symbol. No order of the wires plays a part. Main statement: a grammar compiled from
a draft follows exactly these paths, since no two edges of a state share a character,
and matches exactly what the draft matches. -/
namespace Munch

namespace CharSet

def Disjoint (s t : CharSet) : Prop := ∀ ch, ¬ (ch ∈ s ∧ ch ∈ t)

end CharSet

/- Where no two members of a list qualify, the first that does is any that does. -/
theorem findSole {α : Type} {p : α → Bool} {l : List α}
    (apart : l.Pairwise fun a b => ¬ (p a = true ∧ p b = true)) {a : α} :
    l.find? p = some a ↔ a ∈ l ∧ p a = true := by
  constructor
  · intro h
    exact ⟨List.mem_of_find?_eq_some h,List.find?_some h⟩
  intro h
  obtain ⟨member,holds⟩ := h
  induction l with
  | nil => cases member
  | cons b rest ih =>
    obtain ⟨first,tail⟩ := List.pairwise_cons.mp apart
    rcases List.mem_cons.mp member with same | inside
    · subst same; exact List.find?_cons_of_pos holds
    · have refused : ¬ p b = true := fun qualifies => first a inside ⟨qualifies,holds⟩
      rw [List.find?_cons_of_neg refused]
      exact ih tail inside

theorem okOfBind {α β : Type} {x : Except Error α} {f : α → Except Error β} {b : β}
    (succeeds : x >>= f = .ok b) : ∃ a, x = .ok a ∧ f a = .ok b := by
  cases x with
  | error e => cases succeeds
  | ok a => exact ⟨a,rfl,succeeds⟩

theorem okOfForM {α : Type} {check : α → Except Error Unit} {l : List α}
    (passes : l.forM check = .ok ()) : ∀ a ∈ l, check a = .ok () := by
  induction l with
  | nil => intro a member; cases member
  | cons b rest ih =>
    obtain ⟨_,here,tail⟩ := okOfBind passes
    intro a member
    rcases List.mem_cons.mp member with same | inside
    · subst same; exact here
    · exact ih tail a inside

namespace Draft

/-! Two sets without a range that begins inside another share no character. -/

theorem firstOverlapNone {ranges : List CharRange} (none : firstOverlap ranges = none) :
    ranges.Pairwise fun a b => a.last.toNat < b.first.toNat := by
  fun_induction firstOverlap ranges with
  | case1 => cases none
  | case2 a b rest apart ih =>
    have tail := ih none
    have gap : a.last.toNat < b.first.toNat := Nat.lt_of_not_le apart
    have first : ∀ r ∈ b::rest, a.last.toNat < r.first.toNat := by
      intro r member
      rcases List.mem_cons.mp member with same | inside
      · subst same; exact gap
      · have next := (List.pairwise_cons.mp tail).1 r inside
        have ordered := b.ordered
        omega
    exact List.pairwise_cons.mpr ⟨first,tail⟩
  | case3 ranges short =>
    cases ranges with
    | nil => exact .nil
    | cons a rest =>
      cases rest with
      | nil => exact List.pairwise_singleton _ _
      | cons b rest => exact absurd rfl (short a b rest)

theorem sharedCharNone {sets : List CharSet} (none : sharedChar sets = none) :
    sets.Pairwise CharSet.Disjoint := by
  have sorted := firstOverlapNone none
  have disjoint : (CharRange.sort (sets.flatMap fun s => s.ranges.toList)).Pairwise
      fun a b => ∀ ch, ¬ (ch ∈ a ∧ ch ∈ b) := by
    apply sorted.imp
    intro a b gap ch both
    simp only [CharRange.memIff] at both
    omega
  rw [(CharRange.sortPerm _).pairwise_iff fun h ch both => h ch both.symm,
    List.pairwise_flatMap] at disjoint
  apply disjoint.2.imp
  intro s t apart ch both
  obtain ⟨⟨a,inS,inA⟩,b,inT,inB⟩ := both
  exact apart a inS b inT ch ⟨inA,inB⟩

theorem resolved {d : Draft} {edges : List Edge} {sets : List CharSet}
    (resolves : edges.mapM d.resolveEdge = .ok sets) :
    edges.map (fun e => d.charSets[e.charSet]?) = sets.map some := by
  induction edges generalizing sets with
  | nil => cases resolves; rfl
  | cons e rest ih =>
    rw [List.mapM_cons] at resolves
    obtain ⟨s,here,more⟩ := okOfBind resolves
    obtain ⟨others,tail,whole⟩ := okOfBind more
    cases whole
    have known : d.charSets[e.charSet]? = some s := by
      unfold resolveEdge at here
      repeat' split at here
      all_goals cases here
      assumption
    rw [List.map_cons,List.map_cons,ih tail,known]

theorem checkedState {d : Draft} {s : State} (passes : d.checkState s = .ok ()) :
    d.checkAccept s.accept = .ok () ∧
      s.edges.Pairwise fun a b => ∀ u v, d.charSets[a.charSet]? = some u →
        d.charSets[b.charSet]? = some v → u.Disjoint v := by
  obtain ⟨_,accept,more⟩ := okOfBind passes
  obtain ⟨sets,resolves,apart⟩ := okOfBind more
  cases shared : sharedChar sets with
  | some ch => simp only [shared] at apart; cases apart
  | none =>
    have disjoint : (sets.map some).Pairwise fun a b => ∀ u v, a = some u → b = some v →
        u.Disjoint v := by
      rw [List.pairwise_map]
      apply (sharedCharNone shared).imp
      intro s t disjoint u v one two
      cases one; cases two
      exact disjoint
    rw [← resolved resolves,List.pairwise_map] at disjoint
    exact ⟨accept,disjoint⟩

/-! What a draft declares, whether it compiles or not. -/

def start (d : Draft) : Nat := d.initial.getD 0

def Leads (d : Draft) (source : Nat) (ch : Char) (target : Nat) : Prop :=
  ∃ w ∈ d.wires, w.source = source ∧ w.edge.target = target ∧
    ∃ s, d.charSets[w.edge.charSet]? = some s ∧ ch ∈ s

inductive Path (d : Draft) : Nat → List Char → Nat → Prop where
  | here (state) : Path d state [] state
  | along {source ch next text final} (leads : d.Leads source ch next)
      (rest : Path d next text final) : Path d source (ch::text) final

def Declares (d : Draft) (state : Nat) (symbol : Symbol) : Prop :=
  d.accepts[state]? = some (some symbol.id) ∧ d.symbols[symbol.id]? = some (symbol.name,symbol.kind)

structure Matches (d : Draft) (text : List Char) (length : Nat) (symbol : Symbol) : Prop where
  positive : 0 < length
  within : length ≤ text.length
  spelled : ∃ state, d.Path d.start (text.take length) state ∧ d.Declares state symbol

/- What a grammar compiled from a draft has of it, and what compiling has checked. -/
structure Compiled (d : Draft) (g : Grammar) : Prop where
  symbols : g.symbols = d.symbolTable
  charSets : g.charSets = d.charSets
  states : g.states = d.stateTable
  initial : g.initial = d.start
  endSymbol : sole d.symbolTable .endOfInput = .ok g.endSymbol
  errorSymbol : sole d.symbolTable .error = .ok g.errorSymbol
  sources : ∀ w ∈ d.wires, w.source < d.accepts.size
  checked : ∀ s ∈ d.stateTable.toList, d.checkState s = .ok ()

theorem compiled {d : Draft} {g : Grammar} (compiles : d.compile = .ok g) : Compiled d g := by
  obtain ⟨last,endSymbol,more⟩ := okOfBind compiles
  obtain ⟨fallback,errorSymbol,more⟩ := okOfBind more
  split at more
  · cases more
  obtain ⟨_,sources,more⟩ := okOfBind more
  obtain ⟨_,states,more⟩ := okOfBind more
  obtain ⟨initial,started,whole⟩ := okOfBind more
  cases whole
  refine ⟨rfl,rfl,rfl,?_,endSymbol,errorSymbol,?_,okOfForM states⟩
  · unfold checkInitial at started
    dsimp only at started
    split at started <;> cases started
    rfl
  · intro w member
    have known := okOfForM sources w (Array.mem_toList_iff.mpr member)
    unfold checkSource at known
    split at known
    · assumption
    · cases known

namespace Compiled
variable {d : Draft} {g : Grammar} (c : Compiled d g)
include c

theorem state (id : Nat) :
    g.state? id = (d.accepts[id]?).map fun accept => ⟨id,accept,d.edgesOf id⟩ := by
  rw [Grammar.state?,c.states,stateTable,Array.getElem?_mapIdx]

theorem symbol (id : Nat) : g.symbol? id = (d.symbols[id]?).map fun s => ⟨id,s.1,s.2⟩ := by
  rw [Grammar.symbol?,c.symbols,symbolTable,Array.getElem?_mapIdx]

theorem stateChecked {id : Nat} {s : State} (found : g.state? id = some s) :
    d.checkState s = .ok () := by
  rw [Grammar.state?,c.states] at found
  exact c.checked s (Array.mem_toList_iff.mpr (Array.mem_of_getElem? found))

theorem admits {ch : Char} {e : Edge} :
    g.admits ch e = true ↔ ∃ s, d.charSets[e.charSet]? = some s ∧ ch ∈ s := by
  simp only [Grammar.admits,Grammar.charSet?,c.charSets,Option.any_eq_true,CharSet.containsIff]

theorem next {source target : Nat} {ch : Char} :
    g.next? source ch = some target ↔ d.Leads source ch target := by
  simp only [Grammar.next?,bind,Option.bind_eq_some_iff]
  constructor
  · intro h
    obtain ⟨s,found,e,first,same⟩ := h
    cases same
    rw [c.state] at found
    obtain ⟨accept,_,rfl⟩ := Option.map_eq_some_iff.mp found
    have member := List.mem_of_find?_eq_some first
    simp only [edgesOf,List.mem_map,List.mem_filter,Array.mem_toList_iff,decide_eq_true_eq] at member
    obtain ⟨w,⟨wired,leaves⟩,rfl⟩ := member
    exact ⟨w,wired,leaves,rfl,c.admits.mp (List.find?_some first)⟩
  · intro h
    obtain ⟨w,wired,leaves,rfl,set⟩ := h
    have inside := c.sources w wired
    rw [leaves] at inside
    have found : g.state? source = some ⟨source,d.accepts[source],d.edgesOf source⟩ := by
      rw [c.state,Array.getElem?_eq_getElem inside,Option.map_some]
    have apart := (checkedState (c.stateChecked found)).2
    -- Two edges that admit the character would share it.
    have sole : (d.edgesOf source).Pairwise
        fun a b => ¬ (g.admits ch a = true ∧ g.admits ch b = true) := by
      apply apart.imp
      intro a b disjoint both
      obtain ⟨s,one,inS⟩ := c.admits.mp both.1
      obtain ⟨t,two,inT⟩ := c.admits.mp both.2
      exact disjoint s t one two ch ⟨inS,inT⟩
    have member : w.edge ∈ d.edgesOf source := by
      simp only [edgesOf,List.mem_map,List.mem_filter,Array.mem_toList_iff,decide_eq_true_eq]
      exact ⟨w,⟨wired,leaves⟩,rfl⟩
    exact ⟨_,found,w.edge,(findSole sole).mpr ⟨member,c.admits.mpr set⟩,rfl⟩

theorem accepted {state : Nat} {y : Symbol} :
    g.accepted? state = some y ↔ d.Declares state y := by
  simp only [Grammar.accepted?,bind,Option.bind_eq_some_iff,c.state,c.symbol,Option.map_eq_some_iff]
  constructor
  · intro h
    obtain ⟨s,⟨accept,declared,rfl⟩,id,same,⟨name,kind⟩,known,rfl⟩ := h
    dsimp only at same
    subst same
    exact ⟨declared,known⟩
  · intro h
    obtain ⟨declared,known⟩ := h
    exact ⟨_,⟨_,declared,rfl⟩,y.id,rfl,_,known,rfl⟩

theorem lexical {state : Nat} {y : Symbol} (declares : d.Declares state y) :
    y.kind.isLexical = true := by
  obtain ⟨declared,known⟩ := declares
  have found : g.state? state = some ⟨state,some y.id,d.edgesOf state⟩ := by
    rw [c.state,declared,Option.map_some]
  have accept := (checkedState (c.stateChecked found)).1
  simp only [checkAccept,known] at accept
  split at accept
  · assumption
  · cases accept

theorem follow {text : List Char} {source final : Nat} :
    g.follow source text = some final ↔ d.Path source text final := by
  induction text generalizing source with
  | nil =>
    constructor
    · intro h; cases h; exact .here _
    · intro h; cases h; rfl
  | cons ch rest ih =>
    simp only [Grammar.follow,List.foldlM_cons,bind,Option.bind_eq_some_iff]
    constructor
    · intro h
      obtain ⟨next,step,tail⟩ := h
      exact .along (c.next.mp step) (ih.mp tail)
    · intro h
      cases h with
      | along leads tail => exact ⟨_,c.next.mpr leads,ih.mpr tail⟩

theorem matchesIff {text : List Char} {n : Nat} {y : Symbol} :
    g.Matches text n y ↔ d.Matches text n y := by
  have spelled : g.spelled? (text.take n) = some y ↔
      ∃ state, d.Path d.start (text.take n) state ∧ d.Declares state y := by
    simp only [Grammar.spelled?,c.initial,Option.bind_eq_some_iff,c.follow,c.accepted]
  constructor
  · intro h; exact ⟨h.positive,h.within,spelled.mp h.spelled⟩
  · intro h; exact ⟨h.positive,h.within,spelled.mpr h.spelled⟩

end Compiled

theorem compilesOk {d : Draft} (ok : d.compile.isOk = true) : ∃ g, d.compile = .ok g := by
  cases result : d.compile with
  | ok g => exact ⟨g,rfl⟩
  | error e => rw [result] at ok; cases ok

/- A draft of words and block comments. -/
def sample : Draft where
  name := "sample"
  symbols := #[("End",.endOfInput),("Error",.error),("word",.terminal),
    ("open",.commentBlockStart),("close",.commentBlockEnd)]
  charSets := #[.ofString "ab",.ofString "/",.ofString "*"]
  accepts := #[none,some 2,none,some 3,none,some 4]
  wires := #[⟨0,0,1⟩,⟨1,0,1⟩,⟨0,1,2⟩,⟨2,2,3⟩,⟨0,2,4⟩,⟨4,1,5⟩]

theorem sampleCompiles : ∃ g, sample.compile = .ok g := compilesOk (by cbv)

theorem ofCompile {α : Type} {d : Draft} {g : Grammar} {f : Grammar → α} {a : α}
    (compiles : d.compile = .ok g) (computes : d.compile.map f = .ok a) : f g = a := by
  rw [compiles] at computes
  exact Except.ok.inj computes

theorem sampleEnd {g : Grammar} (compiles : sample.compile = .ok g) :
    g.endSymbol = ⟨0,"End",.endOfInput⟩ :=
  ofCompile (f := Grammar.endSymbol) compiles (by cbv)

end Draft
end Munch
