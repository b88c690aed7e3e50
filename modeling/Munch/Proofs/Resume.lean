import Munch.Proofs.ReadAhead
import Munch.Tokenizer

/-! A failed read costs nothing but its own call. A tokenizer is settled by reading
ahead all that its source will deliver. A call that answers answers as it would on
the settled tokenizer and leaves the tokenizer that is left there; a failed call
reports the next failure of the source and leaves a tokenizer whose settled form
still gives the same answer, also in the middle of a comment. -/
namespace Munch

namespace Head
variable {σ : Type}

def settle (h : Head σ) (d : Delivery) : Head TextSource := ⟨h.input.settle d,h.cursor⟩

theorem settleConsume {h : Head σ} {count : Nat} (within : count ≤ h.input.pending.length)
    (d : Delivery) : (h.consume count).settle d = (h.settle d).consume count := by
  simp only [settle,consume,ahead,Input.settleDrop within,Input.settlePending,
    List.take_append_of_le_length within]

theorem settleAhead {h : Head σ} {count : Nat} (within : count ≤ h.input.pending.length)
    (d : Delivery) : (h.settle d).ahead count = h.ahead count := by
  simp only [settle,ahead,Input.settlePending,List.take_append_of_le_length within]

theorem settleSame {h : Head σ} {input : Input σ} {d d' : Delivery}
    (same : input.settle d' = h.input.settle d) :
    ({h with input} : Head σ).settle d' = h.settle d := by
  simp only [settle,same]

variable [CharSource σ]

def Yields (h : Head σ) (d : Delivery) : Prop := h.input.Yields d

end Head

namespace OpenComment
variable {σ : Type} [CharSource σ]

/- What finishing a comment comes to, compared with finishing it on the settled head. -/
structure Resumes {α : Type}
    (finish : Head TextSource → OpenComment → Except ReadError α × Head TextSource × OpenComment)
    (h : Head σ) (c : OpenComment) (d : Delivery)
    (outcome : Except ReadError α × Head σ × OpenComment) (d' : Delivery) : Prop where
  yields : outcome.2.1.Yields d'
  accounts : Accounts outcome.1 d d'
  finished : ∀ a, outcome.1 = .ok a →
    finish (h.settle d) c = (.ok a,outcome.2.1.settle d',outcome.2.2)
  interrupted : ∀ e, outcome.1 = .error e →
    finish (outcome.2.1.settle d') outcome.2.2 = finish (h.settle d) c

theorem Resumes.after {α : Type}
    {finish : Head TextSource → OpenComment → Except ReadError α × Head TextSource × OpenComment}
    {h h' : Head σ} {c c' : OpenComment} {d d' d'' : Delivery}
    {outcome : Except ReadError α × Head σ × OpenComment}
    (rest : Resumes finish h' c' d' outcome d'') (quiet : d.failures = d'.failures)
    (same : finish (h.settle d) c = finish (h'.settle d') c') :
    Resumes finish h c d outcome d'' where
  yields := rest.yields
  accounts := by
    have accounts := rest.accounts
    unfold Accounts at accounts ⊢
    rwa [quiet]
  finished a h := same.trans (rest.finished a h)
  interrupted e h := (rest.interrupted e h).trans same.symm

theorem finishLineEnd {h : Head σ} {c : OpenComment} {input : Input σ}
    (peek : h.input.peek = (.ok none,input)) : finishLine h c = (.ok (),{h with input},c) := by
  rw [finishLine]
  split <;> rename_i shown <;> rw [peek] at shown <;> cases shown
  rfl

theorem finishLineMore {h : Head σ} {c : OpenComment} {ch : Char} {input : Input σ}
    (peek : h.input.peek = (.ok (some ch),input)) :
    finishLine h c = if endsLine ch then (.ok (),{h with input},c)
      else finishLine (Head.consume {h with input} 1) {c with text := c.text.push ch} := by
  rw [finishLine]
  split <;> rename_i shown <;> rw [peek] at shown <;> cases shown
  rfl

theorem finishBlockFound {g : Grammar} {settings : Settings} {h : Head σ} {c : OpenComment}
    {found : Longest} {input : Input σ} (longest : h.input.longest g = (.ok found,input)) :
    finishBlock g settings h c =
      match Reaction.ofLongest settings.nestedBlockComments c.depth found with
      | .cutOff => (.ok .cutOff,{h with input},c)
      | .close length => (.ok .closed,Head.consume {h with input} length,
          if settings.commentText = .withDelimiters
          then c.append (Head.ahead {h with input} length) else c)
      | .take length depth => finishBlock g settings (Head.consume {h with input} length)
          {c.append (Head.ahead {h with input} length) with depth} := by
  rw [finishBlock]
  split <;> rename_i shown <;> rw [longest] at shown <;> cases shown
  dsimp only
  split <;> rename_i reaction <;> rw [reaction]

theorem finishLineResumes {h : Head σ} {d : Delivery} (yields : h.Yields d) (c : OpenComment) :
    ∃ d', Resumes finishLine h c d (finishLine h c) d' := by
  fun_induction finishLine h c generalizing d with
  | case1 h c e input peek =>
    obtain ⟨d',settled,_⟩ := Input.peekSettled yields
    rw [peek] at settled
    refine ⟨d',settled.yields,settled.accounts,?_,?_⟩
    · intro a h; cases h
    · intro e _
      rw [Head.settleSame settled.same]
  | case2 h c input peek =>
    obtain ⟨d',settled,answers⟩ := Input.peekSettled yields
    rw [peek] at settled answers
    refine ⟨d',settled.yields,settled.accounts,?_,?_⟩
    · intro a _
      rw [Head.settleSame settled.same,finishLineEnd (h := h.settle d) (answers _ rfl)]
      rfl
    · intro e h; cases h
  | case3 h c ch input peek ends =>
    obtain ⟨d',settled,answers⟩ := Input.peekSettled yields
    rw [peek] at settled answers
    refine ⟨d',settled.yields,settled.accounts,?_,?_⟩
    · intro a _
      rw [Head.settleSame settled.same,finishLineMore (h := h.settle d) (answers _ rfl),
        if_pos ends]
      rfl
    · intro e h; cases h
  | case4 h c ch input peek inside h' =>
    rename_i ih
    obtain ⟨d',settled,answers⟩ := Input.peekSettled yields
    rw [peek] at settled answers
    obtain ⟨d'',resumes⟩ := ih (d := d') settled.yields
    refine ⟨d'',resumes.after settled.accounts ?_⟩
    obtain ⟨rest,pending⟩ := Input.peekPending peek
    rw [Head.settleConsume (by simp [h',pending]),Head.settleSame settled.same,
      finishLineMore (h := h.settle d) (answers _ rfl),if_neg inside]
    rfl

/- How many characters a reaction takes. -/
def Reaction.length : Reaction → Nat
  | cutOff => 0
  | close length => length
  | take length _ => length

theorem Reaction.within {g : Grammar} {nested : Bool} {depth : Nat} {text : List Char}
    {found : Longest} {reaction : Reaction} (longest : found = g.longest text)
    (reacts : ofLongest nested depth found = reaction) : reaction.length ≤ text.length := by
  rw [← reacts,longest]
  cases result : g.longest text with
  | atEnd => exact Nat.zero_le _
  | nothing => exact List.length_pos_iff.mpr (Grammar.longestNothing.mp result).1
  | found m =>
    have within := Grammar.longestWithin result
    have one := Nat.le_trans m.positive within
    simp only [ofLongest]
    repeat' split
    all_goals first | exact within | exact one

theorem finishBlockResumes (g : Grammar) (settings : Settings) {h : Head σ} {d : Delivery}
    (yields : h.Yields d) (c : OpenComment) :
    ∃ d', Resumes (finishBlock g settings) h c d (finishBlock g settings h c) d' := by
  fun_induction finishBlock g settings h c generalizing d with
  | case1 h c e input longest =>
    obtain ⟨d',settled,_⟩ := Input.longestSettled (g := g) yields
    rw [longest] at settled
    refine ⟨d',settled.yields,settled.accounts,?_,?_⟩
    · intro a h; cases h
    · intro e _
      rw [Head.settleSame settled.same]
  | case2 h c found input longest h' =>
    rename_i reaction
    obtain ⟨d',settled,answers⟩ := Input.longestSettled (g := g) yields
    rw [longest] at settled answers
    refine ⟨d',settled.yields,settled.accounts,?_,?_⟩
    · intro a ending
      cases ending
      rw [Head.settleSame settled.same,finishBlockFound (h := h.settle d) (answers _ rfl).2.1,
        reaction]
      rfl
    · intro e h; cases h
  | case3 h c found input longest h' length =>
    rename_i reaction
    obtain ⟨d',settled,answers⟩ := Input.longestSettled (g := g) yields
    rw [longest] at settled answers
    have within : length ≤ input.pending.length := Reaction.within (answers _ rfl).1 reaction
    refine ⟨d',settled.yields,settled.accounts,?_,?_⟩
    · intro a ending
      cases ending
      rw [Head.settleConsume within,Head.settleSame settled.same,
        finishBlockFound (h := h.settle d) (answers _ rfl).2.1,
        reaction,← Head.settleAhead (h := h') within d',Head.settleSame settled.same]
      rfl
    · intro e h; cases h
  | case4 h c found input longest h' length depth =>
    rename_i reaction ih
    obtain ⟨d',settled,answers⟩ := Input.longestSettled (g := g) yields
    rw [longest] at settled answers
    have within : length ≤ input.pending.length := Reaction.within (answers _ rfl).1 reaction
    obtain ⟨d'',resumes⟩ := ih (d := d') settled.yields
    refine ⟨d'',resumes.after settled.accounts ?_⟩
    rw [Head.settleConsume within,Head.settleSame settled.same,
      finishBlockFound (h := h.settle d) (answers _ rfl).2.1,reaction,
      ← Head.settleAhead (h := h') within d',Head.settleSame settled.same]
    rfl

theorem finishLineKept (h : Head σ) (c : OpenComment) :
    (finishLine h c).2.2.symbol = c.symbol ∧ (finishLine h c).2.2.start = c.start := by
  fun_induction finishLine h c with
  | case1 => exact ⟨rfl,rfl⟩
  | case2 => exact ⟨rfl,rfl⟩
  | case3 => exact ⟨rfl,rfl⟩
  | case4 h c ch input peek inside h' ih => exact ih

theorem finishBlockKept (g : Grammar) (settings : Settings) (h : Head σ) (c : OpenComment) :
    (finishBlock g settings h c).2.2.symbol = c.symbol ∧
      (finishBlock g settings h c).2.2.start = c.start := by
  fun_induction finishBlock g settings h c with
  | case1 => exact ⟨rfl,rfl⟩
  | case2 => exact ⟨rfl,rfl⟩
  | case3 => dsimp only; split <;> exact ⟨rfl,rfl⟩
  | case4 h c found input longest h' length depth reaction ih => exact ih

end OpenComment

namespace Tokenizer
variable {σ : Type}

def settle (t : Tokenizer σ) (d : Delivery) : Tokenizer TextSource :=
  ⟨t.grammar,t.settings,t.head.settle d,t.openComment,t.exhausted,t.failed⟩

variable [CharSource σ]

def Yields (t : Tokenizer σ) (d : Delivery) : Prop := t.head.Yields d

/- The turn in which an attempt to finish a comment results. -/
def finishing {α : Type} (t : Tokenizer σ) (message : Message)
    (events : α → OpenComment → List Event) :
    Except ReadError α × Head σ × OpenComment → Turn σ
  | (.error e,head,c) => failedRead {t with head,openComment := some c} e
  | (.ok a,head,c) =>
    delivered {t with head,openComment := none} (events a c) message ⟨c.symbol,c.text,c.start⟩

def cutOffEvents (ending : OpenComment.Ending) (c : OpenComment) : List Event :=
  if ending = .cutOff then [.unterminatedComment c.start] else []

theorem finishCommentLine {t : Tokenizer σ} {c : OpenComment}
    (isLine : c.symbol.kind = .commentLineStart) : t.finishComment c =
      t.finishing .commentLineRead (fun _ _ => []) (OpenComment.finishLine t.head c) := by
  rw [finishComment,if_pos isLine]
  rcases OpenComment.finishLine t.head c with ⟨_ | _,_,_⟩ <;> rfl

theorem finishCommentBlock {t : Tokenizer σ} {c : OpenComment}
    (isBlock : c.symbol.kind ≠ .commentLineStart) : t.finishComment c =
      t.finishing .commentBlockRead cutOffEvents
        (OpenComment.finishBlock t.grammar t.settings t.head c) := by
  rw [finishComment,if_neg isBlock]
  rcases OpenComment.finishBlock t.grammar t.settings t.head c with ⟨_ | _,_,_⟩ <;> rfl

/- What a call comes to, compared with the same call on the settled tokenizer. -/
structure Resumes (t : Tokenizer σ) (d : Delivery) (turn : Turn σ) (d' : Delivery) : Prop where
  yields : turn.tokenizer.Yields d'
  answered : ∀ scan, turn.result = .ok scan → d.failures = d'.failures ∧
    (t.settle d).next = ⟨.ok scan,turn.events,turn.tokenizer.settle d'⟩
  interrupted : ∀ error, turn.result = .error error → turn.events = [] ∧
    (∃ e, error = ⟨.readFailure e,some turn.tokenizer.position⟩ ∧ d.failures = e::d'.failures) ∧
    (turn.tokenizer.settle d').next = (t.settle d).next
  finished : ∀ scan, turn.result = .ok scan → scan.message = .endOfInput →
    t.exhausted = true ∨ d' = []

theorem finishingResumes {α : Type} {t t' : Tokenizer σ} {d d₀ d' : Delivery} {c : OpenComment}
    {message : Message} {events : α → OpenComment → List Event}
    {finish : Head TextSource → OpenComment → Except ReadError α × Head TextSource × OpenComment}
    {outcome : Except ReadError α × Head σ × OpenComment}
    (resumes : OpenComment.Resumes finish t'.head c d outcome d')
    (kept : outcome.2.2.symbol = c.symbol)
    (finishes : ∀ (u : Tokenizer TextSource) (b : OpenComment), u.grammar = t'.grammar →
      u.settings = t'.settings → b.symbol = c.symbol →
      u.finishComment b = u.finishing message events (finish u.head b))
    (going : message ≠ .endOfInput) (quiet : d₀.failures = d.failures)
    (same : (t.settle d₀).next = (t'.settle d).finishComment c) :
    Resumes t d₀ (t'.finishing message events outcome) d' := by
  rw [finishes _ _ rfl rfl rfl] at same
  obtain ⟨result,head,c'⟩ := outcome
  cases result with
  | error e =>
    have again := resumes.interrupted e rfl
    dsimp only at again kept
    refine ⟨resumes.yields,fun scan h => (by cases h),?_,fun scan h => (by cases h)⟩
    intro error h
    cases h
    refine ⟨rfl,⟨e,rfl,quiet.trans resumes.accounts⟩,?_⟩
    rw [same]
    change finishComment _ c' = _
    rw [finishes _ _ rfl rfl kept]
    change finishing _ message events (finish (head.settle d') c') = _
    rw [again]
    change _ = finishing _ message events (finish (t'.head.settle d) c)
    rcases finish (t'.head.settle d) c with ⟨_ | _,_,_⟩ <;> rfl
  | ok a =>
    have done := resumes.finished a rfl
    refine ⟨resumes.yields,?_,fun error h => (by cases h),?_⟩
    · intro scan h
      cases h
      refine ⟨quiet.trans resumes.accounts,?_⟩
      rw [same]
      change finishing _ message events (finish (t'.head.settle d) c) = _
      rw [done]
      rfl
    · intro scan h isEnd
      cases h
      exact absurd isEnd going

theorem finishCommentResumes {t t' : Tokenizer σ} {d d₀ : Delivery} {c : OpenComment}
    (yields : t'.Yields d) (quiet : d₀.failures = d.failures)
    (same : (t.settle d₀).next = (t'.settle d).finishComment c) :
    ∃ d', Resumes t d₀ (t'.finishComment c) d' := by
  by_cases isLine : c.symbol.kind = .commentLineStart
  · obtain ⟨d',resumes⟩ := OpenComment.finishLineResumes yields c
    rw [finishCommentLine isLine]
    refine ⟨d',finishingResumes resumes (OpenComment.finishLineKept _ _).1 ?_ (by decide) quiet
      same⟩
    intro u b _ _ symbol
    exact finishCommentLine (by rw [symbol]; exact isLine)
  · obtain ⟨d',resumes⟩ :=
      OpenComment.finishBlockResumes t'.grammar t'.settings yields c
    rw [finishCommentBlock isLine]
    refine ⟨d',finishingResumes resumes (OpenComment.finishBlockKept _ _ _ _).1 ?_ (by decide) quiet
      same⟩
    intro u b grammar settings symbol
    rw [finishCommentBlock (by rw [symbol]; exact isLine),grammar,settings]

theorem acceptResumes {t t' : Tokenizer σ} {d d₀ : Delivery} {found : Longest}
    (yields : t'.Yields d) (quiet : d₀.failures = d.failures)
    (longest : found = t'.grammar.longest t'.head.input.pending) (atEnd : found = .atEnd → d = [])
    (same : (t.settle d₀).next = (t'.settle d).accept found) :
    ∃ d', Resumes t d₀ (t'.accept found) d' := by
  cases found with
  | atEnd =>
    refine ⟨d,yields,?_,fun error h => (by cases h),fun _ _ _ => .inr (atEnd rfl)⟩
    intro scan h
    cases h
    exact ⟨quiet,same⟩
  | nothing =>
    have within : 1 ≤ t'.head.input.pending.length :=
      List.length_pos_iff.mpr (Grammar.longestNothing.mp longest.symm).1
    refine ⟨d,yields,?_,fun error h => (by cases h),fun scan h isEnd => (by cases h; cases isEnd)⟩
    intro scan h
    cases h
    refine ⟨quiet,?_⟩
    rw [same]
    simp only [accept,settle,Head.settleAhead within,← Head.settleConsume within]
    rfl
  | found m =>
    have within := Grammar.longestWithin longest.symm
    by_cases opens : m.symbol.kind = .commentLineStart ∨ m.symbol.kind = .commentBlockStart
    · simp only [accept,if_pos opens] at same ⊢
      refine finishCommentResumes yields quiet ?_
      rw [same]
      simp only [settle,Head.settleAhead within,← Head.settleConsume within]
      rfl
    · simp only [accept,if_neg opens] at same ⊢
      refine ⟨d,yields,?_,fun error h => (by cases h),fun scan h isEnd => (by cases h; cases isEnd)⟩
      intro scan h
      cases h
      refine ⟨quiet,?_⟩
      rw [same]
      simp only [settle,Head.settleAhead within,← Head.settleConsume within]
      rfl

theorem nextParked {t : Tokenizer σ} {c : OpenComment} (parked : t.openComment = some c) :
    t.next = t.finishComment c := by
  simp only [next,parked]

theorem nextExhausted {t : Tokenizer σ} (closed : t.openComment = none)
    (done : t.exhausted = true) : t.next = t.atEnd := by
  simp only [next,closed,done,if_true]

theorem nextScanning {t : Tokenizer σ} (closed : t.openComment = none)
    (live : t.exhausted = false) {answer : Except ReadError Longest} {input : Input σ}
    (longest : t.head.input.longest t.grammar = (answer,input)) :
    t.next = match answer with
      | .error e => failedRead {t with head := {t.head with input}} e
      | .ok found => accept {t with head := {t.head with input}} found := by
  simp only [next,closed,live,longest]
  cases answer <;> rfl

theorem nextResumes {t : Tokenizer σ} {d : Delivery} (yields : t.Yields d) :
    ∃ d', Resumes t d t.next d' := by
  cases parked : t.openComment with
  | some c =>
    rw [nextParked parked]
    exact finishCommentResumes yields rfl (nextParked (t := t.settle d) parked)
  | none =>
    cases done : t.exhausted with
    | true =>
      rw [nextExhausted parked done]
      refine ⟨d,yields,?_,fun error h => (by cases h),fun _ _ _ => .inl done⟩
      intro scan h
      cases h
      exact ⟨rfl,nextExhausted (t := t.settle d) parked done⟩
    | false =>
      obtain ⟨d',settled,answers⟩ := Input.longestSettled (g := t.grammar) yields
      cases longest : t.head.input.longest t.grammar with
      | mk answer input =>
        rw [longest] at settled answers
        rw [nextScanning parked done longest]
        have moved : ({t.head with input} : Head σ).settle d' = t.head.settle d :=
          Head.settleSame settled.same
        cases answer with
        | error e =>
          refine ⟨d',settled.yields,fun scan h => (by cases h),?_,fun scan h => (by cases h)⟩
          intro error h
          cases h
          refine ⟨rfl,⟨e,rfl,settled.accounts⟩,?_⟩
          simp only [failedRead,settle,moved]
        | ok found =>
          obtain ⟨here,there,atEnd⟩ := answers found rfl
          refine acceptResumes settled.yields settled.accounts here atEnd ?_
          rw [nextScanning (t := t.settle d) parked done there]
          simp only [settle,moved]
          rfl

end Tokenizer
end Munch
