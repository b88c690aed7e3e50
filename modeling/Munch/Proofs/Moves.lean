import Mathlib.Logic.Relation
import Munch.Proofs.Session

/-! What a call does, one move after the other: the source of a head answers, or the
head consumes characters that have been read ahead. Nothing else happens to a head, and
no more than its head, its open comment and whether it is exhausted changes of a
tokenizer. Main statement: whatever a call answers refers to the place where its token
begins, a failure to the place where the call leaves off. -/
namespace Munch
variable {σ : Type} [CharSource σ]

inductive Head.Move : Head σ → Head σ → Prop where
  | character {s s' pending cursor ch} (read : CharSource.read s = (.ok (some ch),s')) :
      Move ⟨⟨s,pending,false⟩,cursor⟩ ⟨⟨s',pending ++ [ch],false⟩,cursor⟩
  | finished {s s' pending cursor} (read : CharSource.read s = (.ok none,s')) :
      Move ⟨⟨s,pending,false⟩,cursor⟩ ⟨⟨s',pending,true⟩,cursor⟩
  | failure {s s' pending cursor e} (read : CharSource.read s = (.error e,s')) :
      Move ⟨⟨s,pending,false⟩,cursor⟩ ⟨⟨s',pending,false⟩,cursor⟩
  | consume (h count) : Move h (h.consume count)

abbrev Head.Moves : Head σ → Head σ → Prop := Relation.ReflTransGen Head.Move

namespace Head.Moves

theorem peek (h : Head σ) : Moves h {h with input := h.input.peek.2} := by
  obtain ⟨⟨source,pending,ended⟩,cursor⟩ := h
  cases pending with
  | cons ch rest => exact .refl
  | nil =>
    cases ended with
    | true => exact .refl
    | false =>
      cases read : CharSource.read source with
      | mk answer source' =>
        simp only [Input.peek,read]
        cases answer with
        | error e => exact .single (.failure read)
        | ok shown =>
          cases shown with
          | none => exact .single (.finished read)
          | some ch => exact .single (.character read)

theorem readOn (g : Grammar) (w : Walk) (source : σ) (taken : List Char) (cursor : Cursor) :
    Moves ⟨⟨source,taken.reverse,false⟩,cursor⟩ ⟨(Input.readOn g w source taken).2,cursor⟩ := by
  fun_induction Input.readOn g w source taken with
  | case1 => exact .refl
  | case2 w source taken going ch source' read ih =>
    rw [List.reverse_cons] at ih
    exact .head (.character read) ih
  | case3 w source taken going source' read => exact .single (.finished read)
  | case4 w source taken going e source' read => exact .single (.failure read)

theorem walk (g : Grammar) (h : Head σ) : Moves h {h with input := (h.input.walk g).2} := by
  unfold Input.walk
  dsimp only
  split
  · exact .refl
  · rename_i short
    have live : h.input.ended = false := by simp_all
    have moves := readOn g ((Walk.start g).run g h.input.pending) h.input.source
      h.input.pending.reverse h.cursor
    rw [List.reverse_reverse,← live] at moves
    exact moves

theorem longest (g : Grammar) (h : Head σ) : Moves h {h with input := (h.input.longest g).2} := by
  have moves := walk g h
  unfold Input.longest
  split <;> rename_i walked <;> rw [walked] at moves <;> exact moves

theorem ofPeek {h : Head σ} {answer : Answer} {input : Input σ}
    (shown : h.input.peek = (answer,input)) : Moves h {h with input} := by
  have moves := peek h
  rwa [shown] at moves

theorem ofLongest {g : Grammar} {h : Head σ} {answer : Except ReadError Longest} {input : Input σ}
    (found : h.input.longest g = (answer,input)) : Moves h {h with input} := by
  have moves := longest g h
  rwa [found] at moves

theorem consume {h h' : Head σ} (moves : Moves h h') (count : Nat) : Moves h (h'.consume count) :=
  moves.tail (.consume _ _)

theorem finishLine (h : Head σ) (c : OpenComment) :
    Moves h (OpenComment.finishLine h c).2.1 := by
  fun_induction OpenComment.finishLine h c with
  | case1 h c e input shown => exact ofPeek shown
  | case2 h c input shown => exact ofPeek shown
  | case3 h c ch input shown ends => exact ofPeek shown
  | case4 h c ch input shown inside h' ih => exact ((ofPeek shown).consume 1).trans ih

theorem finishBlock (g : Grammar) (settings : Settings) (h : Head σ) (c : OpenComment) :
    Moves h (OpenComment.finishBlock g settings h c).2.1 := by
  fun_induction OpenComment.finishBlock g settings h c with
  | case1 h c e input found => exact ofLongest found
  | case2 h c longest input found => exact ofLongest found
  | case3 h c longest input found h' length => exact (ofLongest found).consume length
  | case4 h c longest input found h' length depth _ ih =>
    exact ((ofLongest found).consume length).trans ih

end Head.Moves

namespace Tokenizer

/- Where the token begins that the next call will answer or go on with. -/
def began (t : Tokenizer σ) : Position :=
  match t.openComment with
  | some c => c.start
  | none => t.position

structure Calls (t : Tokenizer σ) (start : Position) (turn : Turn σ) : Prop where
  grammar : turn.tokenizer.grammar = t.grammar
  settings : turn.tokenizer.settings = t.settings
  failed : turn.tokenizer.failed = t.failed
  moves : t.head.Moves turn.tokenizer.head
  answered : ∀ scan, turn.result = .ok scan → scan.token.position = start
  interrupted : ∀ error, turn.result = .error error → error.position = some turn.tokenizer.position
  parked : ∀ c, turn.tokenizer.openComment = some c → c.start = start

theorem finishingCalls {α : Type} {t : Tokenizer σ} {c : OpenComment} {message : Message}
    {events : α → OpenComment → List Event} {outcome : Except ReadError α × Head σ × OpenComment}
    (moves : t.head.Moves outcome.2.1) (kept : outcome.2.2.start = c.start) :
    t.Calls c.start (t.finishing message events outcome) := by
  obtain ⟨result,head,c'⟩ := outcome
  cases result with
  | error e =>
    refine ⟨rfl,rfl,rfl,moves,nofun,?_,?_⟩
    · intro error h
      cases h
      rfl
    · intro d h
      cases h
      exact kept
  | ok a =>
    refine ⟨rfl,rfl,rfl,moves,?_,nofun,nofun⟩
    intro scan h
    cases h
    exact kept

theorem finishCommentCalls (t : Tokenizer σ) {c : OpenComment} {start : Position}
    (starts : c.start = start) : t.Calls start (t.finishComment c) := by
  subst starts
  by_cases isLine : c.symbol.kind = .commentLineStart
  · rw [finishCommentLine isLine]
    exact finishingCalls (.finishLine _ _) (OpenComment.finishLineKept _ _).2
  · rw [finishCommentBlock isLine]
    exact finishingCalls (.finishBlock _ _ _ _) (OpenComment.finishBlockKept _ _ _ _).2

theorem Calls.after {t : Tokenizer σ} {head : Head σ} {start : Position} {turn : Turn σ}
    (moves : t.head.Moves head) (calls : Calls {t with head} start turn) : t.Calls start turn :=
  {calls with moves := moves.trans calls.moves}

theorem atEndCalls {t : Tokenizer σ} (closed : t.openComment = none) :
    t.Calls t.position t.atEnd := by
  refine ⟨rfl,rfl,rfl,.refl,?_,nofun,?_⟩
  · intro scan h
    cases h
    rfl
  · intro c h
    rw [show t.atEnd.tokenizer.openComment = t.openComment from rfl,closed] at h
    cases h

theorem deliveredCalls {t : Tokenizer σ} {head : Head σ} (closed : t.openComment = none)
    (moves : t.head.Moves head) (events : List Event) (message : Message) (symbol : Symbol)
    (text : String) : t.Calls t.position
      (delivered {t with head} events message ⟨symbol,text,t.position⟩) := by
  refine ⟨rfl,rfl,rfl,moves,?_,nofun,?_⟩
  · intro scan h
    cases h
    rfl
  · intro c h
    rw [show (delivered {t with head} events message ⟨symbol,text,t.position⟩).tokenizer.openComment
      = t.openComment from rfl,closed] at h
    cases h

theorem acceptCalls {t : Tokenizer σ} (closed : t.openComment = none) (found : Longest) :
    t.Calls t.position (t.accept found) := by
  cases found with
  | atEnd => exact atEndCalls closed
  | nothing => exact deliveredCalls closed (.single (.consume _ _)) _ _ _ _
  | found m =>
    have moves : t.head.Moves (t.head.consume m.length) := .single (.consume _ _)
    simp only [accept]
    split
    · exact .after moves (finishCommentCalls _ rfl)
    · exact deliveredCalls closed moves _ _ _ _

theorem nextCalls (t : Tokenizer σ) : t.Calls t.began t.next := by
  unfold began
  cases parked : t.openComment with
  | some c =>
    rw [nextParked parked]
    exact finishCommentCalls t rfl
  | none =>
    cases done : t.exhausted with
    | true =>
      rw [nextExhausted parked done]
      exact atEndCalls parked
    | false =>
      cases longest : t.head.input.longest t.grammar with
      | mk answer input =>
        rw [nextScanning parked done longest]
        have moves : t.head.Moves {t.head with input} := .ofLongest longest
        cases answer with
        | error e =>
          refine ⟨rfl,rfl,rfl,moves,nofun,?_,?_⟩
          · intro error h
            cases h
            rfl
          · intro c h
            rw [show (failedRead {t with head := {t.head with input}} e).tokenizer.openComment
              = t.openComment from rfl,parked] at h
            cases h
        | ok found =>
          exact .after moves (acceptCalls (t := {t with head := {t.head with input}}) parked found)

theorem performGrammar (t : Tokenizer σ) (op : Operation) :
    (t.perform op).tokenizer.grammar = t.grammar := by
  have performs := t.performs op
  generalize t.perform op = step at performs ⊢
  cases performs with
  | quiet => rfl
  | called => exact (nextCalls t).grammar

theorem performMoves (t : Tokenizer σ) (op : Operation) :
    t.head.Moves (t.perform op).tokenizer.head := by
  have performs := t.performs op
  generalize t.perform op = step at performs ⊢
  cases performs with
  | quiet => exact .refl
  | called => exact (nextCalls t).moves

end Tokenizer
end Munch
