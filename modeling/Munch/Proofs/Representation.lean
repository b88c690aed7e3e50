import Munch.Proofs.Failure
import Munch.Proofs.Faultless
import Munch.Proofs.Kinds

/-! What the parts of a tokenizer stand for. The characters that its source has handed out
are those consumed, then those read ahead; the cursor has passed over the consumed ones;
nothing is left where the end has been answered; and an open comment begins with the marker
of a symbol that opens comments, behind which a line comment has met no end of a line. Main
statement: all of this holds after any operations, failed calls included, and recording the
source for it makes no difference. -/
namespace Munch
variable {σ : Type}

namespace OpenComment

/- No line has ended behind the marker of a line comment. -/
def Unbroken (c : OpenComment) (span : List Char) (opening : Nat) : Prop :=
  c.symbol.kind = .commentLineStart → ∀ ch ∈ span.drop opening, endsLine ch = false

theorem Unbroken.further {g : Grammar} {settings : Settings} {c c' : OpenComment}
    {span pending run : List Char} {opening : Nat} (unbroken : c.Unbroken span opening)
    (within : opening ≤ span.length) (continues : c.Continues g settings run pending c') :
    c'.Unbroken (span ++ run) opening := by
  intro isLine
  rw [continues.symbol] at isLine
  rw [List.drop_append_of_le_length within]
  intro ch member
  rcases List.mem_append.mp member with early | late
  · exact unbroken isLine ch early
  · exact (continues.line isLine).2 ch late

/- An open comment, told from the characters that have been consumed and those that have
been read ahead. -/
structure Stems (g : Grammar) (c : OpenComment) (consumed pending : List Char) : Prop where
  lists : g.Lists c.symbol
  opens : c.symbol.kind.opensComment
  start : c.start = Position.after (consumed.take c.start.index)
  earlier : c.start < Position.after consumed
  /-- Its marker is the longest match at its start; of a line comment no character behind
  the marker ends the line. -/
  marker : ∃ opening, g.Leading (consumed.drop c.start.index ++ pending) opening c.symbol ∧
    c.start.index+opening ≤ consumed.length ∧
    (c.symbol.kind = .commentLineStart →
      ∀ ch ∈ consumed.drop (c.start.index+opening), endsLine ch = false)

end OpenComment

theorem Cursor.advanceAllPrevious (text : List Char) :
    (start.advanceAll text).previous = text.getLast? := by
  have last := (advanceAllColumn text.reverse).1
  rwa [List.reverse_reverse,List.head?_reverse] at last

namespace Input
variable [CharSource σ]

/- There is nothing to match only where everything has been read. -/
theorem longestOver {g : Grammar} {i input : Input σ}
    (longest : i.longest g = (.ok .atEnd,input)) : input.pending = [] ∧ input.ended = true := by
  have empty : input.pending = [] := Grammar.longestAtEnd.mp (longestHere longest).symm
  refine ⟨empty,?_⟩
  unfold Input.longest at longest
  have walked (w : Walk) := walkWalked (g := g) (i := i) (w := w)
  generalize i.walk g = walk at longest walked
  obtain ⟨result,i'⟩ := walk
  cases result with
  | error e => cases longest
  | ok w =>
    obtain ⟨_,rfl⟩ := Prod.mk.inj longest
    obtain ⟨same,stuck | ended⟩ := walked w rfl
    · rw [same,empty] at stuck
      cases stuck
    · exact ended

end Input

namespace Head
variable [CharSource σ]

theorem movesHanded {h h' : Head (Recorded σ)} (moves : h.Moves h') :
    h.input.source.handed <+: h'.input.source.handed := by
  induction moves with
  | refl => exact List.prefix_rfl
  | tail _ last ih =>
    refine ih.trans ?_
    cases last with
    | consume => exact List.prefix_rfl
    | character read | finished read | failure read =>
      simp only [Recorded.handed,(Recorded.readAfter read).2,List.filterMap_append]
      exact List.prefix_append _ _

end Head

namespace Tokenizer

/- Nothing is left where the end has been answered. -/
structure Spent (t : Tokenizer σ) : Prop where
  nothing : t.head.input.pending = []
  ended : t.head.input.ended = true
  closed : t.openComment = none

theorem Spent.atEnd {t : Tokenizer σ} (spent : t.Spent) : t.atEnd.tokenizer.Spent :=
  ⟨spent.nothing,spent.ended,spent.closed⟩

variable [CharSource σ]

theorem acceptSpent {t : Tokenizer σ} {found : Longest} (closed : t.openComment = none)
    (settled : found = .atEnd → t.head.input.pending = [] ∧ t.head.input.ended = true)
    (live : t.exhausted = false) (done : (t.accept found).tokenizer.exhausted = true) :
    (t.accept found).tokenizer.Spent := by
  rcases acceptExhausted t found with same | isEnd
  · rw [same,live] at done
    cases done
  · obtain rfl := acceptEnd isEnd
    obtain ⟨nothing,ended⟩ := settled rfl
    exact Spent.atEnd ⟨nothing,ended,closed⟩

theorem nextSpent {t : Tokenizer σ} (spent : t.exhausted = true → t.Spent)
    (done : t.next.tokenizer.exhausted = true) : t.next.tokenizer.Spent := by
  cases parked : t.openComment with
  | some c =>
    rw [nextParked parked,finishCommentExhausted] at done
    cases parked.symm.trans (spent done).closed
  | none =>
    cases before : t.exhausted with
    | true =>
      rw [nextExhausted parked before]
      exact (spent before).atEnd
    | false =>
      cases longest : t.head.input.longest t.grammar with
      | mk answer input =>
        rw [nextScanning parked before longest] at done ⊢
        cases answer with
        | error e => cases before.symm.trans done
        | ok found =>
          refine acceptSpent parked (fun atEnd => ?_) before done
          subst atEnd
          exact Input.longestOver longest

/- The marker of the open comment, and that the comment is unbroken behind it. -/
def Lined (g : Grammar) (t : Tokenizer (Recorded σ)) : Prop :=
  ∀ c, t.openComment = some c → ∃ opening,
    c.Marked g (t.consumed.drop c.start.index) t.head.input.pending opening ∧
    c.Unbroken (t.consumed.drop c.start.index) opening

theorem Lined.next {g : Grammar} {t : Tokenizer (Recorded σ)} (lined : t.Lined g)
    (parking : t.Parking g) : t.next.tokenizer.Lined g := by
  intro c opened
  cases result : t.next.result with
  | ok scan => cases (nextClosed result).symm.trans opened
  | error error =>
    obtain ⟨e,chars,run,gathers,_,interrupts⟩ := nextFailing result
    have consumed := consumedFailing parking.accounted gathers
    have index := (consumedKept parking.accounted).2.2
    obtain rfl := parking.grammar
    generalize t.next.tokenizer = t' at gathers consumed interrupts opened
    cases interrupts with
    | searching closed => cases closed.symm.trans opened
    | continued parked continues =>
      cases opened
      obtain ⟨opening,marked,unbroken⟩ := lined _ parked
      rw [continues.start,consumed,List.drop_append_of_le_length (parking.starts _ parked).1]
      exact ⟨opening,marked.further continues gathers,unbroken.further marked.within continues⟩
    | opened closed live start scanned =>
      cases opened
      rw [start,consumed,index,List.drop_left]
      exact ⟨_,scanned.toMarked,fun isLine => (scanned.line isLine).2⟩

/- What is kept by every operation. -/
structure Keeps (g : Grammar) (t : Tokenizer (Recorded σ)) : Prop where
  parking : t.Parking g
  fitting : t.Fitting g
  lined : t.Lined g
  spent : t.exhausted = true → t.Spent

theorem Keeps.perform {d : Draft} {g : Grammar} (c : d.Compiled g) {t : Tokenizer (Recorded σ)}
    (keeps : t.Keeps g) (op : Operation) : (t.perform op).tokenizer.Keeps g := by
  obtain ⟨parking,fitting,lined,spent⟩ := keeps
  have after := parking.perform op
  have fits := (performFitting c fitting op).1
  have further := lined.next parking
  have settled := nextSpent spent
  have performs := t.performs op
  generalize t.perform op = step at performs after fits ⊢
  cases performs with
  | quiet op settings =>
    refine ⟨after,fits,lined,fun done => ?_⟩
    obtain ⟨nothing,ended,closed⟩ := spent done
    exact ⟨nothing,ended,closed⟩
  | called op failed =>
    refine ⟨after,fits,further,fun done => ?_⟩
    obtain ⟨nothing,ended,closed⟩ := settled done
    exact ⟨nothing,ended,closed⟩

theorem trackedKeeps {d : Draft} {g : Grammar} (c : d.Compiled g) (settings : Settings) (source : σ)
    (ops : List Operation) : ((tracked g settings source).after ops).Keeps g :=
  afterInvariant ⟨trackedParking g settings source [],⟨rfl,nofun⟩,nofun,nofun⟩
    (fun _ op keeps => keeps.perform c op) ops

theorem trackedAlike (g : Grammar) (settings : Settings) (source : σ) (ops : List Operation) :
    ((tracked g settings source).after ops).Alike Recorded.Live Recorded.Over
      (((ofSource g source).configure settings).after ops) := by
  have start := recordedAlike g settings source
  change (tracked g settings source).Alike _ _ _ at start
  generalize tracked g settings source = t at start ⊢
  generalize (ofSource g source).configure settings = u at start ⊢
  induction ops generalizing t u with
  | nil => exact start
  | cons op ops ih => exact ih _ _ (performAlike Recorded.simulates start op).tokenizer

/- The parts of a tokenizer over a recorded source, and what they stand for. -/
structure Represents (g : Grammar) (t : Tokenizer (Recorded σ)) : Prop where
  handed : t.close.handed = t.consumed ++ t.head.input.pending
  cursor : t.head.cursor = t.consumed.foldl Cursor.advance ⟨Position.start,none⟩
  position : t.position = Position.after t.consumed
  previous : t.head.cursor.previous = t.consumed.getLast?
  exhausted : t.exhausted = true → t.Spent
  parked : ∀ c, t.openComment = some c → c.Stems g t.consumed t.head.input.pending

omit [CharSource σ] in
theorem Keeps.stems {g : Grammar} {t : Tokenizer (Recorded σ)} (keeps : t.Keeps g)
    {c : OpenComment} (opened : t.openComment = some c) :
    c.Stems g t.consumed t.head.input.pending := by
  obtain ⟨lists,opens⟩ := keeps.fitting.parked c opened
  obtain ⟨within,start,_⟩ := keeps.parking.starts c opened
  obtain ⟨opening,marked,unbroken⟩ := keeps.lined c opened
  have leading := marked.leading []
  rw [List.append_nil] at leading
  have positive := leading.found.positive
  have inside := marked.within
  rw [List.length_drop] at inside
  refine ⟨lists,opens,start,?_,opening,leading,by omega,fun isLine => ?_⟩
  · refine Position.compareOfIndex ?_
    change c.start.index < t.consumed.length
    omega
  · rw [← List.drop_drop]
    exact unbroken isLine

omit [CharSource σ] in
theorem Keeps.represents {g : Grammar} {t : Tokenizer (Recorded σ)} (keeps : t.Keeps g) :
    t.Represents g := by
  obtain ⟨handed,cursor,_⟩ := consumedKept keeps.parking.accounted
  refine ⟨handed,cursor,?_,?_,keeps.spent,fun c opened => keeps.stems opened⟩
  · rw [Tokenizer.position,Head.position,cursor]
    exact Cursor.advanceAllPlace _
  · rw [cursor]
    exact Cursor.advanceAllPrevious _

/- What has been consumed stays consumed. -/
theorem consumedGrows {t : Tokenizer (Recorded σ)} (accounted : t.head.Accounted)
    (ops : List Operation) : t.consumed <+: (t.after ops).consumed := by
  have moves := afterMoves t ops
  obtain ⟨handed,_,index⟩ := consumedKept accounted
  have forward : t.position.index ≤ (t.after ops).position.index := Head.Moves.forward moves
  have whole : t.consumed <+: (t.after ops).close.handed :=
    (List.take_prefix _ _).trans (Head.movesHanded moves)
  refine List.prefix_take_iff.mpr ⟨whole,?_⟩
  rw [← index]
  exact forward

theorem representationKept {d : Draft} {g : Grammar} (compiles : d.compile = .ok g)
    (settings : Settings) (source : σ) (ops : List Operation) :
    ((tracked g settings source).after ops).Represents g ∧
    (∀ more, ((tracked g settings source).after ops).consumed <+:
      ((tracked g settings source).after (ops ++ more)).consumed) ∧
    ((tracked g settings source).after ops).Alike Recorded.Live Recorded.Over
      (((ofSource g source).configure settings).after ops) := by
  have keeps := trackedKeeps (Draft.compiled compiles) settings source ops
  refine ⟨keeps.represents,fun more => ?_,trackedAlike g settings source ops⟩
  rw [afterAppend]
  exact consumedGrows keeps.parking.accounted more

/- A draft of line comments, and a source that fails within one. -/
def noting : Draft where
  name := "noting"
  symbols := #[("End",.endOfInput),("Error",.error),("note",.commentLineStart)]
  charSets := #[.ofString "#"]
  accepts := #[none,some 2]
  wires := #[⟨0,0,1⟩]

def noted : Script :=
  ⟨[.ok (some '#'),.ok (some 'a'),.error ⟨.timedOut,""⟩,.ok (some '\n')]⟩

theorem representationKeptSample : ∃ (g : Grammar) (t : Tokenizer (Recorded Script)),
    noting.compile = .ok g ∧ t = (tracked g {} noted).after [.next] ∧
    t.consumed = ['#','a'] ∧
    t.openComment = some ⟨⟨2,"note",.commentLineStart⟩,"#a",.start,1⟩ ∧ t.Represents g := by
  obtain ⟨g,compiles⟩ : ∃ g, noting.compile = .ok g := Draft.compilesOk (by cbv)
  refine ⟨g,_,compiles,rfl,?_,?_,(representationKept compiles {} noted [.next]).1⟩
  · exact Draft.ofCompile (f := fun g => ((tracked g {} noted).after [.next]).consumed) compiles
      (by cbv)
  · exact Draft.ofCompile (f := fun g => ((tracked g {} noted).after [.next]).openComment) compiles
      (by cbv)

end Tokenizer
end Munch
