import Munch.Proofs.Catalogue
import Munch.Proofs.Guarded
import Munch.Proofs.Moves

/-! No run meets a fault. What compiling has checked keeps every look into a table within
it; what has been read ahead covers what is consumed; a comment that is open, parked or
not, has a marker to be closed and does not begin ahead of the place reached. Main
statement: guarded execution gives what execution gives, for every compiled grammar, every
source and all operations in any order. -/
namespace Munch

namespace Grammar

theorem tryFindOk {g : Grammar} (ch : Char) {edges : List Edge}
    (known : ∀ e ∈ edges, ∃ s, g.charSet? e.charSet = some s) :
    g.tryFind ch edges = .ok (edges.find? (g.admits ch)) := by
  induction edges with
  | nil => rfl
  | cons e rest ih =>
    obtain ⟨⟨s,found⟩,others⟩ := List.forall_mem_cons.mp known
    cases inside : s.contains ch <;>
      simp [tryFind,tryCharSet,admits,found,inside,ih others]

theorem trySymbolOk {g : Grammar} {y : Symbol} (lists : g.Lists y) : g.trySymbol y.id = .ok y := by
  rw [trySymbol,lists]

theorem namesFold (names : Std.HashMap String Nat) (symbols : List Symbol) (name : String) :
    (symbols.foldl (fun names y => names.insertIfNew y.name y.id) names)[name]? =
      names[name]?.or ((symbols.find? fun y => y.name = name).map Symbol.id) := by
  induction symbols generalizing names with
  | nil => simp
  | cons y rest ih =>
    rw [List.foldl_cons,ih,Std.HashMap.getElem?_insertIfNew,List.find?_cons]
    by_cases bears : y.name = name
    · subst bears
      by_cases taken : y.name ∈ names
      · simp [taken]
      · simp [taken]
    · simp [bears]

theorem namesFirst (g : Grammar) (name : String) :
    g.names[name]? = (g.symbolByName? name).map Symbol.id := by
  rw [names,namesFold,symbolByName?,Std.HashMap.getElem?_empty,Option.none_or,Array.find?_toList]

end Grammar

namespace Draft.Compiled
variable {d : Draft} {g : Grammar} (c : d.Compiled g)
include c

theorem edgeSet {id : Nat} {s : State} (found : g.state? id = some s) {e : Edge}
    (member : e ∈ s.edges) : ∃ s, g.charSet? e.charSet = some s := by
  obtain ⟨_,_,more⟩ := okOfBind (c.stateChecked found)
  obtain ⟨sets,resolves,_⟩ := okOfBind more
  have known : d.charSets[e.charSet]? ∈ sets.map some :=
    resolved resolves ▸ List.mem_map_of_mem member
  obtain ⟨set,_,same⟩ := List.mem_map.mp known
  exact ⟨set,by rw [Grammar.charSet?,c.charSets,same]⟩

theorem tryNext (state : Nat) (ch : Char) : g.tryNext state ch = .ok (g.next? state ch) := by
  cases found : g.state? state with
  | none => simp [Grammar.tryNext,Grammar.next?,found]
  | some s =>
    have followed := Grammar.tryFindOk ch fun e => c.edgeSet (e := e) found
    cases first : s.edges.find? (g.admits ch) <;>
      simp [Grammar.tryNext,Grammar.next?,found,followed,first]

/- An edge whose set was never declared. -/
example : Grammar.tryNext ⟨"",#[],#[],#[⟨0,none,[⟨1,0⟩]⟩],0,⟨0,"",.endOfInput⟩,⟨1,"",.error⟩⟩ 0 'a' =
    .error (.charSet 1) := rfl

theorem tryByName (name : String) : g.tryByName name = .ok (g.symbolByName? name) := by
  rw [Grammar.tryByName,Grammar.namesFirst]
  cases found : g.symbolByName? name with
  | none => rfl
  | some y =>
    have lists : g.Lists y :=
      c.listed.mpr (Array.mem_toList_iff.mpr (Array.mem_of_find?_eq_some found))
    simp [Grammar.trySymbolOk lists]

theorem tryStep (w : Walk) (ch : Char) : w.tryStep g ch = .ok (w.step g ch) := by
  cases state : w.state with
  | none => simp [Walk.tryStep,Walk.step,state]
  | some source =>
    cases next : g.next? source ch with
    | none => simp [Walk.tryStep,Walk.step,state,c.tryNext,next]
    | some target =>
      cases accepts : g.accepted? target <;>
        simp [Walk.tryStep,Walk.step,state,c.tryNext,next,accepts]

theorem tryRun (w : Walk) (text : List Char) : w.tryRun g text = .ok (w.run g text) := by
  induction text generalizing w with
  | nil => rfl
  | cons ch rest ih =>
    rw [Walk.tryRun,Walk.run,c.tryStep]
    split
    · rfl
    · exact ih _

end Draft.Compiled

/- A guarded way to read, and the sources it reads without a fault. -/
structure Trusted {σ : Type} [CharSource σ] (tryRead : σ → Except Fault (Answer × σ))
    (Safe : σ → Prop) : Prop where
  reads : ∀ s, Safe s → tryRead s = .ok (CharSource.read s)
  stays : ∀ s, Safe s → Safe (CharSource.read s).2

section
variable {σ : Type} [CharSource σ] {tryRead : σ → Except Fault (Answer × σ)} {Safe : σ → Prop}
  {d : Draft} {g : Grammar}

theorem Trusted.after (trusted : Trusted tryRead Safe) {s s' : σ} {answer : Answer}
    (safe : Safe s) (read : CharSource.read s = (answer,s')) : Safe s' := by
  have stays := trusted.stays s safe
  rwa [read] at stays

namespace Head

theorem Moves.safe (trusted : Trusted tryRead Safe) {h h' : Head σ} (moves : h.Moves h')
    (safe : Safe h.input.source) : Safe h'.input.source := by
  induction moves with
  | refl => exact safe
  | tail _ move ih =>
    cases move with
    | character read => exact trusted.after ih read
    | finished read => exact trusted.after ih read
    | failure read => exact trusted.after ih read
    | consume => exact ih

/- The place reached never falls back. -/
theorem Moves.forward {h h' : Head σ} (moves : h.Moves h') :
    h.position.index ≤ h'.position.index := by
  induction moves with
  | refl => exact Nat.le_refl _
  | tail _ move ih =>
    cases move with
    | character | finished | failure => exact ih
    | consume h count =>
      simp only [position,Head.consume,Cursor.advanceAllIndex] at ih ⊢
      omega

omit [CharSource σ] in
theorem tryConsumeOk {h : Head σ} {count : Nat} (within : count ≤ h.input.pending.length) :
    h.tryConsume count = .ok (h.consume count) := if_pos within

end Head

namespace Input

theorem tryPeekOk (trusted : Trusted tryRead Safe) {i : Input σ} (safe : Safe i.source) :
    i.tryPeek tryRead = .ok i.peek := by
  obtain ⟨source,pending,ended⟩ := i
  cases pending with
  | cons ch rest => rfl
  | nil =>
    cases ended with
    | true => rfl
    | false =>
      cases read : CharSource.read source with
      | mk answer source' =>
        simp [tryPeek,peek,trusted.reads source safe,read]
        rcases answer with e | _ | ch <;> rfl

theorem tryReadOnOk (c : d.Compiled g) (trusted : Trusted tryRead Safe) {w : Walk} {source : σ}
    {taken : List Char} (safe : Safe source) :
    tryReadOn tryRead g w source taken = .ok (readOn g w source taken) := by
  fun_induction readOn g w source taken with
  | case1 w source taken stuck => rw [tryReadOn,if_pos stuck]
  | case2 w source taken going ch source' read ih =>
    have less := CharSource.boundLt _ _ _ read
    rw [tryReadOn,if_neg going,trusted.reads source safe,read]
    simp [c.tryStep,less,ih (trusted.after safe read)]
  | case3 w source taken going source' read =>
    rw [tryReadOn,if_neg going,trusted.reads source safe,read]
    rfl
  | case4 w source taken going e source' read =>
    rw [tryReadOn,if_neg going,trusted.reads source safe,read]
    rfl

theorem tryLongestOk (c : d.Compiled g) (trusted : Trusted tryRead Safe) {i : Input σ}
    (safe : Safe i.source) : i.tryLongest tryRead g = .ok (i.longest g) := by
  have walked : i.tryWalk tryRead g = .ok (i.walk g) := by
    simp only [tryWalk,walk,c.tryRun,tryReadOnOk c trusted safe,Fault.okBind]
    split <;> rfl
  rw [tryLongest,walked,longest]
  cases i.walk g with
  | mk answer i' => cases answer <;> rfl

end Input

namespace OpenComment

theorem tryFinishLineOk (trusted : Trusted tryRead Safe) {h : Head σ} (safe : Safe h.input.source)
    (c : OpenComment) : tryFinishLine tryRead h c = .ok (finishLine h c) := by
  fun_induction finishLine h c with
  | case1 h c e input peek =>
    rw [tryFinishLine,Input.tryPeekOk trusted safe,peek]
    rfl
  | case2 h c input peek =>
    rw [tryFinishLine,Input.tryPeekOk trusted safe,peek]
    rfl
  | case3 h c ch input peek ends =>
    rw [tryFinishLine,Input.tryPeekOk trusted safe,peek]
    simp [ends]
  | case4 h c ch input peek inside h' ih =>
    rw [tryFinishLine,Input.tryPeekOk trusted safe,peek]
    obtain ⟨rest,pending⟩ := Input.peekPending peek
    have within : 1 ≤ h'.input.pending.length := by simp [h',pending]
    have less : (h'.consume 1).bound < h.bound := by
      have le := Input.peekBound h.input
      rw [peek] at le
      exact Nat.lt_of_lt_of_le (Head.consumeBound (by simp [h',pending]) Nat.one_pos) le
    have safe' := Head.Moves.safe trusted ((Head.Moves.ofPeek peek).consume 1) safe
    simp [inside,h',Head.tryConsumeOk within,less,ih safe']

theorem Reaction.tryOfLongestOk {nested : Bool} {depth : Nat} (deep : 0 < depth)
    (found : Longest) : tryOfLongest nested depth found = .ok (ofLongest nested depth found) := by
  cases found with
  | atEnd | nothing => rfl
  | found m =>
    by_cases ends : m.symbol.kind = .commentBlockEnd
    · match depth with
      | 1 => simp [tryOfLongest,ofLongest,ends]
      | depth+2 => simp [tryOfLongest,ofLongest,ends]
    · simp [tryOfLongest,ends]

/- Text that is taken leaves the comment open. -/
theorem Reaction.takeDeep {nested : Bool} {depth length after : Nat} (deep : 0 < depth)
    {found : Longest} (takes : ofLongest nested depth found = .take length after) : 0 < after := by
  cases found with
  | atEnd => cases takes
  | nothing => cases takes; exact deep
  | found m =>
    simp only [ofLongest] at takes
    repeat' split at takes
    all_goals cases takes
    all_goals omega

theorem finishLineDeep {h : Head σ} {c : OpenComment} (deep : 0 < c.depth) :
    0 < (finishLine h c).2.2.depth := by
  fun_induction finishLine h c with
  | case1 | case2 | case3 => exact deep
  | case4 h c ch input peek inside h' ih => exact ih deep

theorem finishBlockDeep {settings : Settings} {h : Head σ} {c : OpenComment} (deep : 0 < c.depth) :
    0 < (finishBlock g settings h c).2.2.depth := by
  fun_induction finishBlock g settings h c with
  | case1 | case2 => exact deep
  | case3 => dsimp only; split <;> exact deep
  | case4 h c found input longest h' length depth reaction ih =>
    exact ih (Reaction.takeDeep deep reaction)

theorem tryFinishBlockOk (compiled : d.Compiled g) (trusted : Trusted tryRead Safe)
    (settings : Settings) {h : Head σ} (safe : Safe h.input.source) {c : OpenComment}
    (deep : 0 < c.depth) :
    tryFinishBlock tryRead g settings h c = .ok (finishBlock g settings h c) := by
  fun_induction finishBlock g settings h c with
  | case1 h c e input longest =>
    rw [tryFinishBlock,Input.tryLongestOk compiled trusted safe,longest]
    rfl
  | case2 h c found input longest h' reaction =>
    rw [tryFinishBlock,Input.tryLongestOk compiled trusted safe,longest]
    simp [Reaction.tryOfLongestOk deep,reaction,h']
  | case3 h c found input longest h' length reaction =>
    have within := Reaction.within (Input.longestHere longest) reaction
    have taken : h'.tryConsume length = .ok (h'.consume length) := Head.tryConsumeOk within
    rw [tryFinishBlock,Input.tryLongestOk compiled trusted safe,longest]
    simp only [Fault.okBind,Reaction.tryOfLongestOk deep,reaction]
    rw [taken]
    rfl
  | case4 h c found input longest h' length depth reaction ih =>
    have within := Reaction.within (Input.longestHere longest) reaction
    have taken : h'.tryConsume length = .ok (h'.consume length) := Head.tryConsumeOk within
    have less : (h'.consume length).bound < h.bound := by
      obtain ⟨more,positive⟩ := Reaction.ofLongestTake reaction
      have le := Input.longestBound g h.input
      rw [longest] at le
      exact Nat.lt_of_lt_of_le (Head.consumeBound (Input.longestPending longest more) positive) le
    have safe' := Head.Moves.safe trusted ((Head.Moves.ofLongest longest).consume length) safe
    have further := ih safe' (Reaction.takeDeep deep reaction)
    rw [tryFinishBlock,Input.tryLongestOk compiled trusted safe,longest]
    simp only [Fault.okBind,Reaction.tryOfLongestOk deep,reaction]
    rw [taken]
    exact (dif_pos less).trans further

end OpenComment

namespace Tokenizer

/- A tokenizer that stays clear of faults: an open comment has a marker to be closed and does
not begin ahead of the place reached. -/
structure Clear (g : Grammar) (Safe : σ → Prop) (t : Tokenizer σ) : Prop where
  grammar : t.grammar = g
  safe : Safe t.head.input.source
  deep : ∀ c, t.openComment = some c → 0 < c.depth
  behind : ∀ c, t.openComment = some c → c.start.index ≤ t.position.index

variable {t : Tokenizer σ}

omit [CharSource σ] in
theorem tryDeliveredOk {events : List Event} {message : Message} {token : Token}
    (behind : token.position.index ≤ t.position.index) :
    t.tryDelivered events message token = .ok (t.delivered events message token) := if_pos behind

omit [CharSource σ] in
theorem tryAtEndOk (c : d.Compiled t.grammar) : t.tryAtEnd = .ok t.atEnd := by
  simp [tryAtEnd,atEnd,Grammar.tryEnd,Grammar.trySymbolOk c.endListed]

theorem tryFinishingOk {α : Type} {message : Message} {events : α → OpenComment → List Event}
    {start : Position} {outcome : Except ReadError α × Head σ × OpenComment}
    (moves : t.head.Moves outcome.2.1) (kept : outcome.2.2.start = start)
    (behind : start.index ≤ t.position.index) :
    t.tryFinishing message events outcome = .ok (t.finishing message events outcome) := by
  obtain ⟨result,head,c⟩ := outcome
  cases result with
  | error e => rfl
  | ok a =>
    have further := moves.forward
    dsimp only at kept
    exact tryDeliveredOk (t := {t with head,openComment := none}) (kept ▸ behind.trans further)

theorem tryFinishCommentOk (compiled : d.Compiled t.grammar) (trusted : Trusted tryRead Safe)
    (safe : Safe t.head.input.source) {c : OpenComment} (deep : 0 < c.depth)
    (behind : c.start.index ≤ t.position.index) :
    t.tryFinishComment tryRead c = .ok (t.finishComment c) := by
  by_cases isLine : c.symbol.kind = .commentLineStart
  · rw [finishCommentLine isLine,tryFinishComment,if_pos isLine,
      OpenComment.tryFinishLineOk trusted safe]
    exact tryFinishingOk (.finishLine _ _) (OpenComment.finishLineKept _ _).2 behind
  · rw [finishCommentBlock isLine,tryFinishComment,if_neg isLine,
      OpenComment.tryFinishBlockOk compiled trusted t.settings safe deep]
    exact tryFinishingOk (.finishBlock _ _ _ _) (OpenComment.finishBlockKept _ _ _ _).2 behind

theorem tryAcceptOk (compiled : d.Compiled t.grammar) (trusted : Trusted tryRead Safe)
    (safe : Safe t.head.input.source) {found : Longest}
    (longest : found = t.grammar.longest t.head.input.pending) :
    t.tryAccept tryRead found = .ok (t.accept found) := by
  cases found with
  | atEnd => exact tryAtEndOk compiled
  | nothing =>
    have within : 1 ≤ t.head.input.pending.length :=
      List.length_pos_iff.mpr (Grammar.longestNothing.mp longest.symm).1
    have further := Head.Moves.forward (.single (.consume t.head 1))
    simp [tryAccept,accept,Head.tryConsumeOk within,Grammar.tryError,
      Grammar.trySymbolOk compiled.errorListed]
    exact tryDeliveredOk further
  | found m =>
    have within := Grammar.longestWithin longest.symm
    have further := Head.Moves.forward (.single (.consume t.head m.length))
    simp [tryAccept,accept,Head.tryConsumeOk within]
    split
    · exact tryFinishCommentOk (t := {t with head := t.head.consume m.length}) compiled trusted safe
        Nat.one_pos further
    · exact tryDeliveredOk further

theorem tryNextOk (compiled : d.Compiled g) (trusted : Trusted tryRead Safe)
    (clear : t.Clear g Safe) : t.tryNext tryRead = .ok t.next := by
  obtain ⟨rfl,safe,deep,behind⟩ := clear
  cases parked : t.openComment with
  | some c =>
    rw [nextParked parked,tryNext,parked]
    exact tryFinishCommentOk compiled trusted safe (deep c parked) (behind c parked)
  | none =>
    cases done : t.exhausted with
    | true =>
      rw [nextExhausted parked done,tryNext,parked]
      simp [done,tryAtEndOk compiled]
    | false =>
      cases longest : t.head.input.longest t.grammar with
      | mk answer input =>
        rw [nextScanning parked done longest]
        simp [tryNext,parked,done,Input.tryLongestOk compiled trusted safe,longest]
        cases answer with
        | error e => rfl
        | ok found =>
          have safe' := Head.Moves.safe trusted (.ofLongest longest) safe
          exact tryAcceptOk (t := ⟨t.grammar,t.settings,⟨input,t.head.cursor⟩,none,false,t.failed⟩)
            compiled trusted safe' (Input.longestHere longest)

omit [CharSource σ] in
theorem finishingDeep {α : Type} {message : Message} {events : α → OpenComment → List Event}
    {outcome : Except ReadError α × Head σ × OpenComment} (deep : 0 < outcome.2.2.depth)
    {c : OpenComment} (parked : (t.finishing message events outcome).tokenizer.openComment = some c) :
    0 < c.depth := by
  obtain ⟨result,head,_⟩ := outcome
  cases result <;> cases parked
  exact deep

theorem finishCommentDeep {c c' : OpenComment} (deep : 0 < c.depth)
    (parked : (t.finishComment c).tokenizer.openComment = some c') : 0 < c'.depth := by
  by_cases isLine : c.symbol.kind = .commentLineStart
  · rw [finishCommentLine isLine] at parked
    exact finishingDeep (OpenComment.finishLineDeep deep) parked
  · rw [finishCommentBlock isLine] at parked
    exact finishingDeep (OpenComment.finishBlockDeep deep) parked

theorem acceptDeep (closed : t.openComment = none) {found : Longest} {c : OpenComment}
    (parked : (t.accept found).tokenizer.openComment = some c) : 0 < c.depth := by
  cases found with
  | atEnd | nothing => cases closed.symm.trans parked
  | found m =>
    simp only [accept] at parked
    split at parked
    · exact finishCommentDeep Nat.one_pos parked
    · cases closed.symm.trans parked

/- A comment is parked with a marker still to be closed, whatever the settings are. -/
theorem nextDeep (deep : ∀ c, t.openComment = some c → 0 < c.depth) {c : OpenComment}
    (parked : t.next.tokenizer.openComment = some c) : 0 < c.depth := by
  cases was : t.openComment with
  | some c' =>
    rw [nextParked was] at parked
    exact finishCommentDeep (deep c' was) parked
  | none =>
    cases done : t.exhausted with
    | true =>
      rw [nextExhausted was done] at parked
      cases was.symm.trans parked
    | false =>
      cases longest : t.head.input.longest t.grammar with
      | mk answer input =>
        rw [nextScanning was done longest] at parked
        cases answer with
        | error e => cases was.symm.trans parked
        | ok found => exact acceptDeep (t := {t with head := {t.head with input}}) was parked

omit [CharSource σ] in
theorem Clear.began (clear : t.Clear g Safe) : t.began.index ≤ t.position.index := by
  unfold Tokenizer.began
  cases parked : t.openComment with
  | none => exact Nat.le_refl _
  | some c => exact clear.behind c parked

theorem nextClear (trusted : Trusted tryRead Safe) (clear : t.Clear g Safe) :
    t.next.tokenizer.Clear g Safe := by
  have calls := nextCalls t
  refine ⟨calls.grammar.trans clear.grammar,calls.moves.safe trusted clear.safe,
    fun c => nextDeep clear.deep,fun c parked => ?_⟩
  rw [calls.parked c parked]
  exact clear.began.trans calls.moves.forward

theorem performClear (trusted : Trusted tryRead Safe) (clear : t.Clear g Safe) (op : Operation) :
    (t.perform op).tokenizer.Clear g Safe := by
  have next := nextClear trusted clear
  have performs := t.performs op
  generalize t.perform op = step at performs ⊢
  cases performs with
  | quiet op settings => exact ⟨clear.grammar,clear.safe,clear.deep,clear.behind⟩
  | called op failed => exact ⟨next.grammar,next.safe,next.deep,next.behind⟩

theorem tryPerformOk (compiled : d.Compiled g) (trusted : Trusted tryRead Safe)
    (clear : t.Clear g Safe) (op : Operation) :
    t.tryPerform tryRead op = .ok (t.perform op) := by
  have called := tryNextOk compiled trusted clear
  cases op with
  | next => simp [tryPerform,perform,called]
  | configure settings => rfl
  | iterate => cases done : t.isDone <;> simp [tryPerform,perform,iterate,done,called]

theorem trySessionOk (compiled : d.Compiled g) (trusted : Trusted tryRead Safe)
    (clear : t.Clear g Safe) (ops : List Operation) :
    t.trySession tryRead ops = .ok (t.session ops) := by
  induction ops generalizing t with
  | nil => rfl
  | cons op ops ih =>
    have performs := tryPerformOk compiled trusted clear op
    simp [trySession,session,performs,ih (performClear trusted clear op)]

end Tokenizer

end
end Munch
