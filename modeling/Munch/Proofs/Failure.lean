import Munch.Proofs.Gathering
import Munch.Proofs.Handed

/-! What a failed call leaves behind. It may have opened a comment, or gone on with one, and
it may have read ahead; nothing else about the tokenizer changes. The comment that is open
is what a scan has got from its characters, so that the next call goes on with it. Main
statement: after any operations a call that fails answers with the failure of its last
read, at the place it stands at, no character is lost, and the open comment starts where
its marker was found and has the text and the depth of what has been consumed since. -/
namespace Munch
variable {σ : Type}

namespace OpenComment

/- What opened a comment: the characters from its start on, and those that have been read
ahead behind them, begin with its marker, whatever may follow. -/
structure Marked (g : Grammar) (c : OpenComment) (span pending : List Char) (opening : Nat) :
    Prop where
  kind : c.symbol.kind = .commentLineStart ∨ c.symbol.kind = .commentBlockStart
  within : opening ≤ span.length
  leading : ∀ rest, g.Leading (span ++ (pending ++ rest)) opening c.symbol

/- An open comment as far as it has come under one choice of settings. -/
structure Scanned (g : Grammar) (settings : Settings) (c : OpenComment)
    (span pending : List Char) (opening : Nat) : Prop extends
    Marked g c span pending opening where
  text : c.text = String.ofList
    (if settings.commentText = .withDelimiters then span else span.drop opening)
  line : c.symbol.kind = .commentLineStart →
    c.depth = 1 ∧ ∀ ch ∈ span.drop opening, endsLine ch = false
  block : c.symbol.kind = .commentBlockStart → ∀ rest,
    g.Inside (span.drop opening ++ (pending ++ rest)) settings.nestedBlockComments
      (span.length-opening) c.depth

/- A comment that has taken some more characters and not ended. -/
structure Continues (g : Grammar) (settings : Settings) (c : OpenComment) (run pending : List Char)
    (c' : OpenComment) : Prop where
  same : c' = {c.append run with depth := c'.depth}
  line : c.symbol.kind = .commentLineStart →
    c'.depth = c.depth ∧ ∀ ch ∈ run, endsLine ch = false
  block : c.symbol.kind ≠ .commentLineStart → ∀ rest, Scans g settings.nestedBlockComments
    c.depth (run ++ (pending ++ rest)) run.length c'.depth

section
variable {g : Grammar} {settings : Settings} {c c' : OpenComment} {span pending run : List Char}
  {opening : Nat}

theorem Continues.symbol (continues : c.Continues g settings run pending c') :
    c'.symbol = c.symbol := by
  rw [continues.same]
  rfl

theorem Continues.start (continues : c.Continues g settings run pending c') :
    c'.start = c.start := by
  rw [continues.same]
  rfl

section
variable [CharSource σ] {α : Type} {result : Except ReadError α} {h h' : Head σ}
  {chars : List Char}

theorem Marked.further (marked : c.Marked g span h.input.pending opening)
    (continues : c.Continues g settings run h'.input.pending c')
    (gathers : h.Gathers result chars run h') :
    c'.Marked g (span ++ run) h'.input.pending opening where
  kind := by
    rw [continues.symbol]
    exact marked.kind
  within := Nat.le_trans marked.within (by simp)
  leading rest := by
    rw [continues.symbol,List.append_assoc,gathers.behind]
    exact marked.leading (chars ++ rest)

theorem Scanned.further (scanned : c.Scanned g settings span h.input.pending opening)
    (continues : c.Continues g settings run h'.input.pending c')
    (gathers : h.Gathers result chars run h') :
    c'.Scanned g settings (span ++ run) h'.input.pending opening := by
  have text : c'.text = c.text ++ String.ofList run := by rw [continues.same]; rfl
  have split : (span ++ run).drop opening = span.drop opening ++ run :=
    List.drop_append_of_le_length scanned.within
  constructor
  case toMarked => exact scanned.toMarked.further continues gathers
  case text =>
    rw [text,scanned.text,split,← String.ofList_append]
    split <;> rfl
  case line =>
    intro isLine
    rw [continues.symbol] at isLine
    obtain ⟨one,before⟩ := scanned.line isLine
    obtain ⟨depth,more⟩ := continues.line isLine
    refine ⟨depth.trans one,fun ch member => ?_⟩
    rw [split] at member
    rcases List.mem_append.mp member with early | late
    · exact before ch early
    · exact more ch late
  case block =>
    intro isBlock rest
    rw [continues.symbol] at isBlock
    have before := scansIff.mpr (scanned.block isBlock (chars ++ rest))
    have after := continues.block (by rw [isBlock]; decide) rest
    rw [gathers.behind] at after
    have size : (span.drop opening).length = span.length-opening := List.length_drop
    rw [split,List.append_assoc,gathers.behind,List.length_append,
      Nat.sub_add_comm scanned.within]
    refine scansIff.mp (before.trans ?_)
    rwa [List.drop_left' size]

end

/- A comment that has just been opened, by the longest match in what has been read. -/
theorem opened {text : List Char} {m : Match}
    (kind : m.symbol.kind = .commentLineStart ∨ m.symbol.kind = .commentBlockStart)
    (stable : ∀ rest, g.longest (text ++ rest) = .found m) (start : Position)
    (settings : Settings) :
    Scanned g settings ⟨m.symbol,
      if settings.commentText = .withDelimiters then String.ofList (text.take m.length) else "",
      start,1⟩ (text.take m.length) (text.drop m.length) m.length := by
  have within : m.length ≤ text.length := by
    have found := stable []
    rw [List.append_nil] at found
    exact Grammar.longestWithin found
  have size : (text.take m.length).length = m.length := List.length_take_of_le within
  have none : (text.take m.length).drop m.length = [] := by simp
  refine ⟨⟨kind,Nat.le_of_eq size.symm,fun rest => ?_⟩,?_,fun _ => ⟨rfl,by simp⟩,fun _ rest => ?_⟩
  · rw [← List.append_assoc,List.take_append_drop]
    exact Grammar.longestFound.mp (stable rest)
  · rw [none]
    split <;> rfl
  · rw [size,Nat.sub_self]
    exact scansIff.mp (.here 1 _)

end
end OpenComment

namespace Tokenizer
variable [CharSource σ]

/- How a call that has consumed some characters and failed leaves a tokenizer. -/
inductive Interrupts (t : Tokenizer σ) : List Char → Tokenizer σ → Prop where
  | searching {head} (closed : t.openComment = none) (live : t.exhausted = false) :
      Interrupts t [] {t with head}
  | continued {c c' run head} (parked : t.openComment = some c)
      (continues : c.Continues t.grammar t.settings run head.input.pending c') :
      Interrupts t run {t with head, openComment := some c'}
  | opened {c' run head opening} (closed : t.openComment = none) (live : t.exhausted = false)
      (start : c'.start = t.position)
      (scanned : c'.Scanned t.grammar t.settings run head.input.pending opening) :
      Interrupts t run {t with head, openComment := some c'}

omit [CharSource σ] in
/- Reading ahead before the call makes no difference where no comment is open. -/
theorem Interrupts.before {t t' : Tokenizer σ} {head : Head σ} {run : List Char}
    (interrupts : Interrupts {t with head} run t') (closed : t.openComment = none)
    (same : head.cursor = t.head.cursor) : t.Interrupts run t' := by
  cases interrupts with
  | searching _ live => exact .searching closed live
  | continued parked => cases closed.symm.trans parked
  | opened _ live start scanned =>
    exact .opened closed live (start.trans (congrArg Cursor.position same)) scanned

theorem finishCommentFailing {t : Tokenizer σ} {c : OpenComment} {error : Error}
    (failed : (t.finishComment c).result = .error error) : ∃ e chars run head c',
      (t.finishComment c).tokenizer = {t with head, openComment := some c'} ∧
      error = ⟨.readFailure e,some head.position⟩ ∧ t.head.input.ended = false ∧
      t.head.Gathers (.error e : Except ReadError Unit) chars run head ∧
      c.Continues t.grammar t.settings run head.input.pending c' := by
  by_cases isLine : c.symbol.kind = .commentLineStart
  · rw [finishCommentLine isLine] at failed ⊢
    cases finished : OpenComment.finishLine t.head c with
    | mk result outcome =>
      obtain ⟨head,c'⟩ := outcome
      rw [finished] at failed
      cases result with
      | ok a => cases failed
      | error e =>
        cases failed
        obtain ⟨live,chars,run,gathers,same,line⟩ := OpenComment.finishLineFailing finished
        subst same
        exact ⟨e,chars,run,head,_,rfl,rfl,live,gathers,rfl,fun _ => ⟨rfl,line⟩,
          fun isBlock => absurd isLine isBlock⟩
  · rw [finishCommentBlock isLine] at failed ⊢
    cases finished : OpenComment.finishBlock t.grammar t.settings t.head c with
    | mk result outcome =>
      obtain ⟨head,c'⟩ := outcome
      rw [finished] at failed
      cases result with
      | ok a => cases failed
      | error e =>
        cases failed
        obtain ⟨live,chars,run,gathers,same,scans⟩ := OpenComment.finishBlockFailing finished
        exact ⟨e,chars,run,head,c',rfl,rfl,live,gathers,same,fun is => absurd is isLine,
          fun _ => scans⟩

theorem acceptFailing {t : Tokenizer σ} {found : Longest} {error : Error}
    (closed : t.openComment = none) (done : t.exhausted = false)
    (stable : t.head.input.ended = false → ∀ rest,
      t.grammar.longest (t.head.input.pending ++ rest) = found)
    (failed : (t.accept found).result = .error error) : t.head.input.ended = false ∧
      ∃ e chars run,
        t.head.Gathers (.error e : Except ReadError Unit) chars run
          (t.accept found).tokenizer.head ∧
        error = ⟨.readFailure e,some (t.accept found).tokenizer.position⟩ ∧
        t.Interrupts run (t.accept found).tokenizer := by
  cases found with
  | atEnd => cases failed
  | nothing => cases failed
  | found m =>
    simp only [accept] at failed ⊢
    split at failed
    · rename_i kind
      rw [if_pos kind]
      obtain ⟨e,chars,run,head,c',after,rfl,live,gathers,continues⟩ := finishCommentFailing failed
      have opened := OpenComment.opened kind (stable live) t.position t.settings
      have whole := ((Head.Gathers.refl t.head ()).consume m.length).trans gathers
      rw [after]
      exact ⟨live,e,chars,_,whole,rfl,
        .opened closed done continues.start (opened.further continues gathers)⟩
    · cases failed

theorem nextFailing {t : Tokenizer σ} {error : Error} (failed : t.next.result = .error error) :
    ∃ e chars run,
      t.head.Gathers (.error e : Except ReadError Unit) chars run t.next.tokenizer.head ∧
      error = ⟨.readFailure e,some t.next.tokenizer.position⟩ ∧
      t.Interrupts run t.next.tokenizer := by
  cases parked : t.openComment with
  | some c =>
    rw [nextParked parked] at failed ⊢
    obtain ⟨e,chars,run,head,c',after,rfl,_,gathers,continues⟩ := finishCommentFailing failed
    rw [after]
    exact ⟨e,chars,run,gathers,rfl,.continued parked continues⟩
  | none =>
    cases done : t.exhausted with
    | true =>
      rw [nextExhausted parked done] at failed
      cases failed
    | false =>
      cases longest : t.head.input.longest t.grammar with
      | mk answer input =>
        rw [nextScanning parked done longest] at failed ⊢
        cases answer with
        | error e =>
          cases failed
          obtain ⟨chars,gathers⟩ :=
            Head.Gathers.longest (h := t.head) longest (Input.longestFailing longest)
          exact ⟨e,chars,[],gathers.failing,rfl,.searching parked done⟩
        | ok found =>
          obtain ⟨live,e,chars,run,gathers,same,interrupts⟩ :=
            acceptFailing (t := {t with head := {t.head with input}}) parked done
              (fun live => Input.longestStable longest live) failed
          obtain ⟨first,searched⟩ := Head.Gathers.longest (h := t.head) longest live
          exact ⟨e,_,run,searched.trans gathers,same,interrupts.before parked rfl⟩

/- A call that answers leaves no comment open. -/
theorem nextClosed {t : Tokenizer σ} {scan : Scan} (answered : t.next.result = .ok scan) :
    t.next.tokenizer.openComment = none := by
  have finished {t : Tokenizer σ} {c : OpenComment} {scan : Scan}
      (answered : (t.finishComment c).result = .ok scan) :
      (t.finishComment c).tokenizer.openComment = none := by
    unfold finishComment at answered ⊢
    split at answered
    · rename_i isLine
      rw [if_pos isLine]
      split at answered
      · cases answered
      · rfl
    · rename_i isBlock
      rw [if_neg isBlock]
      split at answered
      · cases answered
      · rfl
  cases parked : t.openComment with
  | some c =>
    rw [nextParked parked] at answered ⊢
    exact finished answered
  | none =>
    cases done : t.exhausted with
    | true => rw [nextExhausted parked done]; exact parked
    | false =>
      cases longest : t.head.input.longest t.grammar with
      | mk answer input =>
        rw [nextScanning parked done longest] at answered ⊢
        cases answer with
        | error e => cases answered
        | ok found =>
          cases found with
          | atEnd => exact parked
          | nothing => exact parked
          | found m =>
            simp only [accept] at answered ⊢
            split at answered
            · rename_i kind
              rw [if_pos kind]
              exact finished answered
            · rename_i kind
              rw [if_neg kind]
              exact parked

end Tokenizer

namespace Recorded
variable [CharSource σ]

theorem readsAnswers {r r' : Recorded σ} {d : Delivery} (reads : Reads r d r') :
    r'.answers = r.answers ++ d.map (·.map some) := by
  induction reads with
  | start => exact (List.append_nil _).symm
  | character read tail ih =>
    rw [ih,(readAfter read).2,List.append_assoc]
    rfl
  | failure read tail ih =>
    rw [ih,(readAfter read).2,List.append_assoc]
    rfl

/- What a failed operation leaves of the record. -/
theorem readsFailing {r r' : Recorded σ} {chars : List Char} {e : ReadError}
    (reads : Reads r (.upTo chars (.error e : Except ReadError Unit)) r') :
    r'.answers = r.answers ++ chars.map (fun ch => .ok (some ch)) ++ [.error e] ∧
      r'.handed = r.handed ++ chars := by
  have answers := readsAnswers reads
  have handed (l : List Char) :
      (l.map fun ch => (.ok (some ch) : Answer)).filterMap character? = l := by
    rw [List.filterMap_map]
    exact List.filterMap_some
  simp only [Delivery.upTo,List.map_append,List.map_map] at answers
  have split : r'.answers = r.answers ++ chars.map (fun ch => .ok (some ch)) ++ [.error e] :=
    answers.trans (List.append_assoc _ _ _).symm
  refine ⟨split,?_⟩
  rw [Recorded.handed,split,List.filterMap_append,List.filterMap_append,handed]
  exact List.append_nil _

end Recorded

namespace Tokenizer

/- The characters that a tokenizer has consumed. -/
def consumed (t : Tokenizer (Recorded σ)) : List Char := t.close.handed.take t.position.index

theorem consumedKept {t : Tokenizer (Recorded σ)} (accounted : t.head.Accounted) :
    t.close.handed = t.consumed ++ t.head.input.pending ∧
      t.head.cursor = Cursor.start.advanceAll t.consumed ∧
      t.position.index = t.consumed.length := by
  obtain ⟨run,handed,cursor⟩ := accounted.kept
  have index : t.position.index = run.length := by
    rw [position,Head.position,cursor,Cursor.advanceAllIndex]
    exact Nat.zero_add _
  have consumed : t.consumed = run := by
    rw [Tokenizer.consumed,index,close,handed,List.take_left]
  rw [consumed]
  exact ⟨handed,cursor,index⟩

variable [CharSource σ]

theorem consumedFailing {t t' : Tokenizer (Recorded σ)} {chars run : List Char} {e : ReadError}
    (accounted : t.head.Accounted)
    (gathers : t.head.Gathers (.error e : Except ReadError Unit) chars run t'.head) :
    t'.consumed = t.consumed ++ run := by
  obtain ⟨handed,cursor,index⟩ := consumedKept accounted
  have handed' := (Recorded.readsFailing gathers.reads).2
  have index' : t'.position.index = (t.consumed ++ run).length := by
    rw [position,Head.position,gathers.cursor,Cursor.advanceAllIndex,List.length_append,← index]
    rfl
  have whole : t'.close.handed = (t.consumed ++ run) ++ t'.head.input.pending := by
    rw [List.append_assoc,← gathers.kept,← List.append_assoc,← handed]
    exact handed'
  rw [Tokenizer.consumed,index',whole,List.take_left]

/- Where an open comment begins, and that the end has not been answered before it. -/
structure Parking (g : Grammar) (t : Tokenizer (Recorded σ)) : Prop where
  grammar : t.grammar = g
  accounted : t.head.Accounted
  live : ∀ c, t.openComment = some c → t.exhausted = false
  starts : ∀ c, t.openComment = some c → c.start.index ≤ t.consumed.length ∧
    c.start = Position.after (t.consumed.take c.start.index) ∧
    ∃ opening, c.Marked g (t.consumed.drop c.start.index) t.head.input.pending opening

section
variable {g : Grammar} {t t' : Tokenizer (Recorded σ)} {run : List Char}

omit [CharSource σ] in
theorem Interrupts.live (interrupts : t.Interrupts run t') (parking : t.Parking g) :
    t'.exhausted = false := by
  cases interrupts with
  | searching closed live => exact live
  | continued parked => exact parking.live _ parked
  | opened closed live => exact live

omit [CharSource σ] in
theorem Interrupts.closed (interrupts : t.Interrupts run t') (closed : t'.openComment = none) :
    run = [] := by
  cases interrupts with
  | searching => rfl
  | continued => cases closed
  | opened => cases closed

omit [CharSource σ] in
theorem Interrupts.taken {c : OpenComment} (interrupts : t.Interrupts run t')
    (parking : t.Parking g) (consumed : t'.consumed = t.consumed ++ run)
    (opened : t'.openComment = some c) : run <:+ t'.consumed.drop c.start.index := by
  rw [consumed]
  cases interrupts with
  | searching closed => cases closed.symm.trans opened
  | continued parked continues =>
    cases opened
    rw [continues.start,List.drop_append_of_le_length (parking.starts _ parked).1]
    exact List.suffix_append _ _
  | opened closed live start =>
    cases opened
    have whole : (t.consumed ++ run).drop t.position.index = run := by
      rw [(consumedKept parking.accounted).2.2,List.drop_left]
    exact start ▸ whole.symm ▸ List.suffix_rfl

end

theorem Parking.next {g : Grammar} {t : Tokenizer (Recorded σ)} (parking : t.Parking g) :
    t.next.tokenizer.Parking g := by
  have calls := nextCalls t
  have accounted := parking.accounted.moves calls.moves
  have grammar := calls.grammar.trans parking.grammar
  cases result : t.next.result with
  | ok scan =>
    have closed := nextClosed result
    refine ⟨grammar,accounted,fun c opened => ?_,fun c opened => ?_⟩
    · cases closed.symm.trans opened
    · cases closed.symm.trans opened
  | error error =>
    obtain ⟨e,chars,run,gathers,_,interrupts⟩ := nextFailing result
    have consumed := consumedFailing parking.accounted gathers
    obtain ⟨_,cursor,index⟩ := consumedKept parking.accounted
    obtain rfl := parking.grammar
    refine ⟨grammar,accounted,fun _ _ => interrupts.live parking,fun c opened => ?_⟩
    generalize t.next.tokenizer = t' at gathers consumed interrupts opened
    cases interrupts with
    | searching closed => cases closed.symm.trans opened
    | continued parked continues =>
      obtain ⟨within,place,opening,marked⟩ := parking.starts _ parked
      cases opened
      rw [continues.start,consumed,List.take_append_of_le_length within,
        List.drop_append_of_le_length within]
      exact ⟨Nat.le_trans within (by simp),place,opening,marked.further continues gathers⟩
    | opened closed live start scanned =>
      cases opened
      rw [start,consumed,index,List.take_left,List.drop_left]
      refine ⟨by simp,?_,_,scanned.toMarked⟩
      rw [position,Head.position,cursor]
      exact Cursor.advanceAllPlace _

theorem Parking.perform {g : Grammar} {t : Tokenizer (Recorded σ)} (parking : t.Parking g)
    (op : Operation) : (t.perform op).tokenizer.Parking g := by
  have performs := t.performs op
  generalize t.perform op = step at performs ⊢
  cases performs with
  | quiet op settings => exact ⟨parking.grammar,parking.accounted,parking.live,parking.starts⟩
  | called op failed =>
    obtain ⟨grammar,accounted,live,starts⟩ := parking.next
    exact ⟨grammar,accounted,live,starts⟩

theorem trackedParking (g : Grammar) (settings : Settings) (source : σ) (ops : List Operation) :
    ((tracked g settings source).after ops).Parking g :=
  afterInvariant ⟨rfl,trackedAccounted g settings source [],nofun,nofun⟩
    (fun _ op parking => parking.perform op) ops

/- What a comment is that was opened and has been gone on with under the same settings. -/
def Holds (g : Grammar) (settings : Settings) (t : Tokenizer (Recorded σ)) : Prop :=
  ∀ c, t.openComment = some c → ∃ opening,
    c.Scanned g settings (t.consumed.drop c.start.index) t.head.input.pending opening

theorem Holds.failing {g : Grammar} {t : Tokenizer (Recorded σ)} {error : Error}
    (holds : t.Holds g t.settings) (parking : t.Parking g)
    (failed : t.next.result = .error error) : t.next.tokenizer.Holds g t.settings := by
  obtain ⟨e,chars,run,gathers,_,interrupts⟩ := nextFailing failed
  have consumed := consumedFailing parking.accounted gathers
  have index := (consumedKept parking.accounted).2.2
  obtain rfl := parking.grammar
  generalize t.next.tokenizer = t' at gathers consumed interrupts
  intro c' opened
  cases interrupts with
  | searching closed => cases closed.symm.trans opened
  | continued parked continues =>
    cases opened
    obtain ⟨opening,scanned⟩ := holds _ parked
    rw [continues.start,consumed,List.drop_append_of_le_length (parking.starts _ parked).1]
    exact ⟨opening,scanned.further continues gathers⟩
  | opened closed live start scanned =>
    cases opened
    rw [start,consumed,index,List.drop_left]
    exact ⟨_,scanned⟩

theorem Holds.perform {g : Grammar} {t : Tokenizer (Recorded σ)} (holds : t.Holds g t.settings)
    (parking : t.Parking g) (op : Operation) : (t.perform op).tokenizer.Holds g t.settings := by
  have performs := t.performs op
  generalize t.perform op = step at performs ⊢
  cases performs with
  | quiet op settings => exact holds
  | called op failed =>
    suffices next : t.next.tokenizer.Holds g t.settings from next
    cases result : t.next.result with
    | ok scan =>
      intro c opened
      cases (nextClosed result).symm.trans opened
    | error error => exact holds.failing parking result

/- The settings have been the same after each of the operations. -/
theorem Holds.after {g : Grammar} {settings : Settings} {t : Tokenizer (Recorded σ)}
    (holds : t.Holds g settings) (parking : t.Parking g) (ops : List Operation)
    (same : ∀ n, (t.after (ops.take n)).settings = settings) : (t.after ops).Holds g settings := by
  induction ops generalizing t with
  | nil => exact holds
  | cons op ops ih =>
    have here : t.settings = settings := same 0
    subst here
    exact ih (holds.perform parking op) (parking.perform op) fun n => same (n+1)

/- The comment that is open has been opened under the settings, and they have not changed
since: at some earlier time no comment was open, and from then on they were the same. -/
def Unchanged (t : Tokenizer (Recorded σ)) (ops : List Operation) : Prop :=
  ∃ earlier since, ops = earlier ++ since ∧ (t.after earlier).openComment = none ∧
    ∀ n, (t.after (earlier ++ since.take n)).settings = (t.after ops).settings

theorem Unchanged.holds {g : Grammar} {settings : Settings} {source : σ} {ops : List Operation}
    (unchanged : (tracked g settings source).Unchanged ops) :
    ((tracked g settings source).after ops).Holds g ((tracked g settings source).after ops).settings := by
  obtain ⟨earlier,since,rfl,closed,same⟩ := unchanged
  have none : ((tracked g settings source).after earlier).Holds g
      ((tracked g settings source).after (earlier ++ since)).settings := by
    intro c opened
    cases closed.symm.trans opened
  have holds := none.after (trackedParking g settings source earlier) since fun n => by
    rw [← afterAppend]
    exact same n
  rwa [← afterAppend] at holds

/- A tokenizer before and after a call that has failed. -/
structure Intact (g : Grammar) (unchanged : Prop) (t t' : Tokenizer (Recorded σ)) (error : Error) :
    Prop where
  live : t'.exhausted = false
  settings : t'.settings = t.settings
  position : error.position = some t'.position
  /-- Of its reads the last one failed. What was read ahead and what it has read is taken
  into the open comment or read ahead. -/
  reads : ∃ e chars taken, error.cause = .readFailure e ∧
    t'.close.answers = t.close.answers ++ chars.map (fun ch => .ok (some ch)) ++ [.error e] ∧
    t.head.input.pending ++ chars = taken ++ t'.head.input.pending ∧
    (t'.openComment = none → taken = [] ∧ t'.position = t.position) ∧
    ∀ c, t'.openComment = some c → taken <:+ t'.consumed.drop c.start.index
  starts : ∀ c, t'.openComment = some c → c.start.index ≤ t'.consumed.length ∧
    c.start = Position.after (t'.consumed.take c.start.index) ∧
    ∃ opening, c.Marked g (t'.consumed.drop c.start.index) t'.head.input.pending opening
  scanned : unchanged → ∀ c, t'.openComment = some c → ∃ opening,
    c.Scanned g t'.settings (t'.consumed.drop c.start.index) t'.head.input.pending opening

theorem failureIntact (g : Grammar) (settings : Settings) (source : σ) (ops : List Operation)
    {error : Error} (failed : ((tracked g settings source).after ops).next.result = .error error) :
    Intact g ((tracked g settings source).Unchanged ops) ((tracked g settings source).after ops)
      ((tracked g settings source).after ops).next.tokenizer error := by
  have parking := trackedParking g settings source ops
  have holds := @Unchanged.holds _ _ g settings source ops
  generalize (tracked g settings source).Unchanged ops = unchanged at holds ⊢
  generalize (tracked g settings source).after ops = t at failed parking holds ⊢
  have calls := nextCalls t
  obtain ⟨e,chars,taken,gathers,rfl,interrupts⟩ := nextFailing failed
  constructor
  case live => exact interrupts.live parking
  case settings => exact calls.settings
  case position => rfl
  case reads =>
    have consumed := consumedFailing parking.accounted gathers
    refine ⟨e,chars,taken,rfl,(Recorded.readsFailing gathers.reads).1,gathers.kept,
      fun closed => ?_,fun c opened => interrupts.taken parking consumed opened⟩
    have none := interrupts.closed closed
    refine ⟨none,congrArg Cursor.position (gathers.cursor.trans ?_)⟩
    rw [none]
    rfl
  case starts => exact parking.next.starts
  case scanned =>
    intro same
    rw [calls.settings]
    exact (holds same).failing parking failed

/- A source that fails behind the marker of a comment and some of its body. -/
def broken (e : ReadError) : Script :=
  ⟨[.ok (some '/'),.ok (some '*'),.ok (some '?'),.ok (some 'a'),.error e]⟩

theorem brokenFails {g : Grammar} {e : ReadError} (compiles : Draft.sample.compile = .ok g) :
    (tracked g {} (broken e)).next.result = .error ⟨.readFailure e,some ⟨3,1,4⟩⟩ ∧
    (tracked g {} (broken e)).next.tokenizer.openComment =
      some ⟨⟨3,"open",.commentBlockStart⟩,"/*?",.start,1⟩ := by
  let c : OpenComment := ⟨⟨3,"open",.commentBlockStart⟩,"/*",.start,1⟩
  let h : Head (Recorded Script) :=
    ⟨⟨⟨⟨[.ok (some 'a'),.error e]⟩,[.ok (some '/'),.ok (some '*'),.ok (some '?')]⟩,['?'],false⟩,
      Cursor.start.advanceAll ['/','*']⟩
  let t : Tokenizer (Recorded Script) := {tracked g {} (broken e) with head := h}
  have opens : (tracked g {} (broken e)).head.input.longest g =
      (.ok (.found ⟨2,c.symbol,Nat.two_pos⟩),{h.input with pending := ['/','*','?']}) :=
    Draft.ofCompile (f := fun g => (tracked g {} (broken e)).head.input.longest g) compiles (by cbv)
  have goesOn : h.input.longest g = (.ok .nothing,h.input) :=
    Draft.ofCompile (f := fun g => h.input.longest g) compiles (by cbv)
  have fails : (h.consume 1).input.longest g =
      (.error e,⟨⟨⟨[]⟩,h.input.source.answers ++ [.ok (some 'a'),.error e]⟩,['a'],false⟩) :=
    Draft.ofCompile (f := fun g => (h.consume 1).input.longest g) compiles (by cbv)
  have scans : OpenComment.finishBlock t.grammar t.settings t.head c = _ :=
    (OpenComment.finishBlockFound goesOn).trans (OpenComment.finishBlockFails fails)
  have opened : (tracked g {} (broken e)).next = t.finishComment c := by
    rw [nextScanning rfl rfl opens]
    rfl
  rw [opened,finishCommentBlock (by simp [c]),scans]
  exact ⟨rfl,rfl⟩

theorem failureIntactSample : ∃ (g : Grammar) (e : ReadError) (c : OpenComment),
    Draft.sample.compile = .ok g ∧
    (tracked g {} (broken e)).next.result = .error ⟨.readFailure e,some ⟨3,1,4⟩⟩ ∧
    (tracked g {} (broken e)).next.tokenizer.openComment = some c ∧ c.text = "/*?" ∧
    Intact g ((tracked g {} (broken e)).Unchanged []) (tracked g {} (broken e))
      (tracked g {} (broken e)).next.tokenizer ⟨.readFailure e,some ⟨3,1,4⟩⟩ := by
  obtain ⟨g,compiles⟩ := Draft.sampleCompiles
  let e : ReadError := ⟨.timedOut,""⟩
  obtain ⟨failed,parked⟩ := brokenFails (e := e) compiles
  exact ⟨g,e,_,compiles,failed,parked,rfl,failureIntact g {} (broken e) [] failed⟩

end Tokenizer
end Munch
