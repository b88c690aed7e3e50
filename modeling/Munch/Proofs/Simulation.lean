import Mathlib.Data.List.Forall2
import Munch.Proofs.Session

/-! Sources that cannot be told apart. Two sources match when they answer alike, and go
on doing so until they report the end; what they are after that is a relation of its
own, since a tokenizer asks neither of them again. Main statement: tokenizers that are
alike but for matching sources give the same answers to the same operations, and their
sources still match after each of them. -/
namespace Munch
variable {σ τ : Type}

/- What two sources answer, and how they are related then. -/
inductive Matching (live spent : σ → τ → Prop) : Answer × σ → Answer × τ → Prop where
  | character {ch s t} (h : live s t) : Matching live spent (.ok (some ch),s) (.ok (some ch),t)
  | finished {s t} (h : spent s t) : Matching live spent (.ok none,s) (.ok none,t)
  | failure {e s t} (h : live s t) : Matching live spent (.error e,s) (.error e,t)

theorem Matching.after {R : σ → τ → Prop} {a : Answer × σ} {b : Answer × τ}
    (matching : Matching R R a b) : R a.2 b.2 := by
  cases matching <;> assumption

structure Input.Alike (live spent : σ → τ → Prop) (i : Input σ) (j : Input τ) : Prop where
  pending : i.pending = j.pending
  ended : i.ended = j.ended
  going : i.ended = false → live i.source j.source
  done : i.ended = true → spent i.source j.source

theorem Input.Alike.related {R : σ → τ → Prop} {i : Input σ} {j : Input τ} (alike : i.Alike R R j) :
    R i.source j.source := by
  cases ended : i.ended with
  | false => exact alike.going ended
  | true => exact alike.done ended

structure Head.Alike (live spent : σ → τ → Prop) (h : Head σ) (k : Head τ) : Prop where
  input : h.input.Alike live spent k.input
  cursor : h.cursor = k.cursor

structure OpenComment.Alike {α : Type} (live spent : σ → τ → Prop)
    (a : Except ReadError α × Head σ × OpenComment)
    (b : Except ReadError α × Head τ × OpenComment) : Prop where
  result : a.1 = b.1
  head : a.2.1.Alike live spent b.2.1
  openComment : a.2.2 = b.2.2

structure Tokenizer.Alike (live spent : σ → τ → Prop) (t : Tokenizer σ) (u : Tokenizer τ) :
    Prop where
  grammar : t.grammar = u.grammar
  settings : t.settings = u.settings
  head : t.head.Alike live spent u.head
  openComment : t.openComment = u.openComment
  exhausted : t.exhausted = u.exhausted
  failed : t.failed = u.failed

structure Turn.Alike (live spent : σ → τ → Prop) (a : Turn σ) (b : Turn τ) : Prop where
  result : a.result = b.result
  events : a.events = b.events
  tokenizer : a.tokenizer.Alike live spent b.tokenizer

structure Step.Alike (live spent : σ → τ → Prop) (a : Step σ) (b : Step τ) : Prop where
  operation : a.operation = b.operation
  result : a.result = b.result
  tokenizer : a.tokenizer.Alike live spent b.tokenizer

theorem Tokenizer.ofSourceAlike {live spent : σ → τ → Prop} (g : Grammar) (settings : Settings)
    {s : σ} {t : τ} (h : live s t) :
    ((ofSource g s).configure settings).Alike live spent ((ofSource g t).configure settings) :=
  ⟨rfl,rfl,⟨⟨rfl,rfl,fun _ => h,nofun⟩,rfl⟩,rfl,rfl,rfl⟩

/- What a caller sees of two steps. -/
structure Step.Agrees (a : Step σ) (b : Step τ) : Prop where
  operation : a.operation = b.operation
  result : a.result = b.result
  position : a.tokenizer.position = b.tokenizer.position
  exhausted : a.tokenizer.exhausted = b.tokenizer.exhausted

theorem Step.Alike.agrees {live spent : σ → τ → Prop} {a : Step σ} {b : Step τ}
    (alike : a.Alike live spent b) : a.Agrees b :=
  ⟨alike.operation,alike.result,congrArg Cursor.position alike.tokenizer.head.cursor,
    alike.tokenizer.exhausted⟩

variable [CharSource σ] [CharSource τ]

def Simulates (live spent : σ → τ → Prop) : Prop :=
  ∀ s t, live s t → Matching live spent (CharSource.read s) (CharSource.read t)

omit [CharSource σ] [CharSource τ] in
theorem pairedOf {α : Type} {R : σ → τ → Prop} {one : α × σ} {other : α × τ}
    (alike : one.1 = other.1 ∧ R one.2 other.2) {a : α} {s : σ} (is : one = (a,s)) :
    ∃ t, other = (a,t) ∧ R s t := by
  cases is
  exact ⟨other.2,Prod.ext alike.1.symm rfl,alike.2⟩

namespace Input

theorem readOnStuck {g : Grammar} {w : Walk} {s : σ} {taken : List Char} (stuck : w.isStuck) :
    readOn g w s taken = (.ok w,⟨s,taken.reverse,false⟩) := by
  rw [readOn,if_pos stuck]

theorem readOnCharacter {g : Grammar} {w : Walk} {s s' : σ} {taken : List Char} {ch : Char}
    (going : ¬ w.isStuck) (read : CharSource.read s = (.ok (some ch),s')) :
    readOn g w s taken = readOn g (w.step g ch) s' (ch::taken) := by
  rw [readOn,if_neg going]
  split <;> rename_i shown <;> rw [read] at shown <;> cases shown
  rfl

theorem readOnFinished {g : Grammar} {w : Walk} {s s' : σ} {taken : List Char}
    (going : ¬ w.isStuck) (read : CharSource.read s = (.ok none,s')) :
    readOn g w s taken = (.ok w,⟨s',taken.reverse,true⟩) := by
  rw [readOn,if_neg going]
  split <;> rename_i shown <;> rw [read] at shown <;> cases shown
  rfl

theorem readOnFailure {g : Grammar} {w : Walk} {s s' : σ} {taken : List Char} {e : ReadError}
    (going : ¬ w.isStuck) (read : CharSource.read s = (.error e,s')) :
    readOn g w s taken = (.error e,⟨s',taken.reverse,false⟩) := by
  rw [readOn,if_neg going]
  split <;> rename_i shown <;> rw [read] at shown <;> cases shown
  rfl

end Input

namespace OpenComment

theorem finishLineFails {h : Head σ} {c : OpenComment} {e : ReadError} {input : Input σ}
    (peek : h.input.peek = (.error e,input)) : finishLine h c = (.error e,{h with input},c) := by
  rw [finishLine]
  split <;> rename_i shown <;> rw [peek] at shown <;> cases shown
  rfl

theorem finishBlockFails {g : Grammar} {settings : Settings} {h : Head σ} {c : OpenComment}
    {e : ReadError} {input : Input σ} (longest : h.input.longest g = (.error e,input)) :
    finishBlock g settings h c = (.error e,{h with input},c) := by
  rw [finishBlock]
  split <;> rename_i shown <;> rw [longest] at shown <;> cases shown
  rfl

end OpenComment

section
variable {live spent : σ → τ → Prop} (simulates : Simulates live spent)
include simulates

namespace Input

theorem peekAlike {i : Input σ} {j : Input τ} (alike : i.Alike live spent j) :
    i.peek.1 = j.peek.1 ∧ i.peek.2.Alike live spent j.peek.2 := by
  obtain ⟨s,pending,ended⟩ := i
  obtain ⟨t,_,_⟩ := j
  obtain ⟨rfl,rfl,going,done⟩ := alike
  cases pending with
  | cons ch rest => exact ⟨rfl,rfl,rfl,going,done⟩
  | nil =>
    cases ended with
    | true => exact ⟨rfl,rfl,rfl,going,done⟩
    | false =>
      simp only [peek]
      have both := simulates s t (going rfl)
      generalize CharSource.read s = one at both
      generalize CharSource.read t = other at both
      cases both with
      | character h => exact ⟨rfl,rfl,rfl,fun _ => h,fun past => (by cases past)⟩
      | finished h => exact ⟨rfl,rfl,rfl,fun past => (by cases past),fun _ => h⟩
      | failure h => exact ⟨rfl,rfl,rfl,fun _ => h,fun past => (by cases past)⟩

theorem readOnAlike {g : Grammar} {w : Walk} {s : σ} {t : τ} {taken : List Char}
    (h : live s t) : (readOn g w s taken).1 = (readOn g w t taken).1 ∧
      (readOn g w s taken).2.Alike live spent (readOn g w t taken).2 := by
  fun_induction readOn g w s taken generalizing t with
  | case1 w s taken stuck =>
    rw [readOnStuck stuck]
    exact ⟨rfl,rfl,rfl,fun _ => h,fun ended => (by cases ended)⟩
  | case2 w s taken going ch s' read ih =>
    have both := simulates s t h
    rw [read] at both
    generalize other : CharSource.read t = answer at both
    cases both with
    | character next =>
      rw [readOnCharacter going other]
      exact ih next
  | case3 w s taken going s' read =>
    have both := simulates s t h
    rw [read] at both
    generalize other : CharSource.read t = answer at both
    cases both with
    | finished next =>
      rw [readOnFinished going other]
      exact ⟨rfl,rfl,rfl,fun ended => (by cases ended),fun _ => next⟩
  | case4 w s taken going e s' read =>
    have both := simulates s t h
    rw [read] at both
    generalize other : CharSource.read t = answer at both
    cases both with
    | failure next =>
      rw [readOnFailure going other]
      exact ⟨rfl,rfl,rfl,fun _ => next,fun ended => (by cases ended)⟩

theorem walkAlike (g : Grammar) {i : Input σ} {j : Input τ} (alike : i.Alike live spent j) :
    (i.walk g).1 = (j.walk g).1 ∧ (i.walk g).2.Alike live spent (j.walk g).2 := by
  unfold walk
  rw [← alike.pending,← alike.ended]
  dsimp only
  split
  · exact ⟨rfl,alike⟩
  · rename_i short
    exact readOnAlike simulates (alike.going (by simp_all))

theorem longestAlike (g : Grammar) {i : Input σ} {j : Input τ} (alike : i.Alike live spent j) :
    (i.longest g).1 = (j.longest g).1 ∧ (i.longest g).2.Alike live spent (j.longest g).2 := by
  obtain ⟨same,after⟩ := walkAlike simulates g alike
  unfold longest
  generalize i.walk g = one at same after
  generalize j.walk g = other at same after
  obtain ⟨result,i'⟩ := one
  obtain ⟨_,j'⟩ := other
  cases same
  cases result with
  | error e => exact ⟨rfl,after⟩
  | ok w =>
    have pending : i'.pending = j'.pending := after.pending
    exact ⟨congrArg (fun text => Except.ok (Longest.ofWalk w text)) pending,after⟩

end Input

namespace Head
omit [CharSource σ] [CharSource τ] simulates

theorem Alike.moved {h : Head σ} {k : Head τ} {i : Input σ} {j : Input τ}
    (alike : h.Alike live spent k) (input : i.Alike live spent j) :
    Head.Alike live spent {h with input := i} {k with input := j} :=
  ⟨input,alike.cursor⟩

theorem Alike.ahead {h : Head σ} {k : Head τ} (alike : h.Alike live spent k) (count : Nat) :
    h.ahead count = k.ahead count := by
  rw [Head.ahead,alike.input.pending]
  rfl

theorem Alike.consume {h : Head σ} {k : Head τ} (alike : h.Alike live spent k) (count : Nat) :
    (h.consume count).Alike live spent (k.consume count) := by
  obtain ⟨pending,ended,going,done⟩ := alike.input
  refine ⟨⟨?_,ended,going,done⟩,?_⟩
  · exact congrArg (List.drop count) pending
  · simp only [Head.consume,alike.ahead count,alike.cursor]

end Head

namespace OpenComment

theorem finishLineAlike {h : Head σ} {k : Head τ} (alike : h.Alike live spent k) (c : OpenComment) :
    OpenComment.Alike live spent (finishLine h c) (finishLine k c) := by
  fun_induction finishLine h c generalizing k with
  | case1 h c e input peek =>
    obtain ⟨j,other,after⟩ := pairedOf (Input.peekAlike simulates alike.input) peek
    rw [finishLineFails other]
    exact ⟨rfl,alike.moved after,rfl⟩
  | case2 h c input peek =>
    obtain ⟨j,other,after⟩ := pairedOf (Input.peekAlike simulates alike.input) peek
    rw [finishLineEnd other]
    exact ⟨rfl,alike.moved after,rfl⟩
  | case3 h c ch input peek ends =>
    obtain ⟨j,other,after⟩ := pairedOf (Input.peekAlike simulates alike.input) peek
    rw [finishLineMore other,if_pos ends]
    exact ⟨rfl,alike.moved after,rfl⟩
  | case4 h c ch input peek inside h' =>
    rename_i ih
    obtain ⟨j,other,after⟩ := pairedOf (Input.peekAlike simulates alike.input) peek
    rw [finishLineMore other,if_neg inside]
    exact ih ((alike.moved after).consume 1)

theorem finishBlockAlike (g : Grammar) (settings : Settings) {h : Head σ} {k : Head τ}
    (alike : h.Alike live spent k) (c : OpenComment) :
    OpenComment.Alike live spent (finishBlock g settings h c) (finishBlock g settings k c) := by
  fun_induction finishBlock g settings h c generalizing k with
  | case1 h c e input longest =>
    obtain ⟨j,other,after⟩ := pairedOf (Input.longestAlike simulates g alike.input) longest
    rw [finishBlockFails other]
    exact ⟨rfl,alike.moved after,rfl⟩
  | case2 h c found input longest h' =>
    rename_i reaction
    obtain ⟨j,other,after⟩ := pairedOf (Input.longestAlike simulates g alike.input) longest
    rw [finishBlockFound other,reaction]
    exact ⟨rfl,alike.moved after,rfl⟩
  | case3 h c found input longest h' length =>
    rename_i reaction
    obtain ⟨j,other,after⟩ := pairedOf (Input.longestAlike simulates g alike.input) longest
    have moved := alike.moved after
    rw [finishBlockFound other,reaction]
    refine ⟨rfl,moved.consume length,?_⟩
    dsimp only [h']
    rw [moved.ahead length]
  | case4 h c found input longest h' length depth =>
    rename_i reaction ih
    obtain ⟨j,other,after⟩ := pairedOf (Input.longestAlike simulates g alike.input) longest
    have moved := alike.moved after
    rw [finishBlockFound other,reaction]
    dsimp only [h'] at ih ⊢
    rw [moved.ahead length] at ih ⊢
    exact ih (moved.consume length)

end OpenComment

namespace Tokenizer

section
omit [CharSource σ] [CharSource τ] simulates
variable {t : Tokenizer σ} {u : Tokenizer τ}

theorem Alike.position (alike : t.Alike live spent u) : t.position = u.position :=
  congrArg Cursor.position alike.head.cursor

theorem Alike.moved (alike : t.Alike live spent u) {h : Head σ} {k : Head τ}
    (heads : h.Alike live spent k) :
    Tokenizer.Alike live spent {t with head := h} {u with head := k} :=
  {alike with head := heads}

theorem Alike.parked (alike : t.Alike live spent u) (openComment : Option OpenComment) :
    Tokenizer.Alike live spent {t with openComment} {u with openComment} :=
  {alike with openComment := rfl}

theorem deliveredAlike (alike : t.Alike live spent u) (events : List Event) (message : Message)
    (token : Token) :
    (t.delivered events message token).Alike live spent (u.delivered events message token) := by
  refine ⟨rfl,?_,alike⟩
  simp only [delivered,alike.position]

theorem failedReadAlike (alike : t.Alike live spent u) (failure : ReadError) :
    (t.failedRead failure).Alike live spent (u.failedRead failure) := by
  refine ⟨?_,rfl,alike⟩
  simp only [failedRead,alike.position]

theorem atEndAlike (alike : t.Alike live spent u) : t.atEnd.Alike live spent u.atEnd := by
  refine ⟨?_,?_,{alike with exhausted := rfl}⟩
  · simp only [atEnd,alike.grammar,alike.position]
  · simp only [atEnd,alike.exhausted,alike.position]

theorem finishingAlike {α : Type} (alike : t.Alike live spent u)
    (message : Message) (events : α → OpenComment → List Event)
    {a : Except ReadError α × Head σ × OpenComment} {b : Except ReadError α × Head τ × OpenComment}
    (outcomes : OpenComment.Alike live spent a b) :
    (t.finishing message events a).Alike live spent (u.finishing message events b) := by
  obtain ⟨result,head,c⟩ := a
  obtain ⟨_,head',_⟩ := b
  obtain ⟨rfl,moved,rfl⟩ := outcomes
  cases result with
  | error e => exact failedReadAlike ((alike.moved moved).parked (some c)) e
  | ok a => exact deliveredAlike ((alike.moved moved).parked none) _ _ _

end

theorem finishCommentAlike {t : Tokenizer σ} {u : Tokenizer τ} (alike : t.Alike live spent u)
    (c : OpenComment) : (t.finishComment c).Alike live spent (u.finishComment c) := by
  by_cases isLine : c.symbol.kind = .commentLineStart
  · rw [finishCommentLine isLine,finishCommentLine isLine]
    exact finishingAlike alike _ _ (OpenComment.finishLineAlike simulates alike.head c)
  · rw [finishCommentBlock isLine,finishCommentBlock isLine,alike.grammar,alike.settings]
    exact finishingAlike alike _ _
      (OpenComment.finishBlockAlike simulates u.grammar u.settings alike.head c)

theorem acceptAlike {t : Tokenizer σ} {u : Tokenizer τ} (alike : t.Alike live spent u)
    (found : Longest) : (t.accept found).Alike live spent (u.accept found) := by
  have place := alike.position
  obtain ⟨_,_,head,_,_,_⟩ := t
  obtain ⟨_,_,head',_,_,_⟩ := u
  obtain ⟨rfl,rfl,heads,rfl,rfl,rfl⟩ := alike
  have unmoved : Tokenizer.Alike live spent ⟨_,_,head,_,_,_⟩ ⟨_,_,head',_,_,_⟩ :=
    ⟨rfl,rfl,heads,rfl,rfl,rfl⟩
  cases found with
  | atEnd => exact atEndAlike unmoved
  | nothing =>
    simp only [accept,heads.ahead 1,place]
    exact deliveredAlike (unmoved.moved (heads.consume 1)) _ _ _
  | found m =>
    have moved := unmoved.moved (heads.consume m.length)
    simp only [accept,heads.ahead m.length,place]
    split
    · exact finishCommentAlike simulates moved _
    · exact deliveredAlike moved _ _ _

theorem nextAlike {t : Tokenizer σ} {u : Tokenizer τ} (alike : t.Alike live spent u) :
    t.next.Alike live spent u.next := by
  cases parked : t.openComment with
  | some c =>
    rw [nextParked parked,nextParked (alike.openComment.symm.trans parked)]
    exact finishCommentAlike simulates alike c
  | none =>
    have closed := alike.openComment.symm.trans parked
    cases done : t.exhausted with
    | true =>
      rw [nextExhausted parked done,nextExhausted closed (alike.exhausted.symm.trans done)]
      exact atEndAlike alike
    | false =>
      cases longest : t.head.input.longest t.grammar with
      | mk answer input =>
        obtain ⟨input',other,after⟩ :=
          pairedOf (Input.longestAlike simulates t.grammar alike.head.input) longest
        rw [alike.grammar] at other
        rw [nextScanning parked done longest,
          nextScanning closed (alike.exhausted.symm.trans done) other]
        have moved := alike.moved (alike.head.moved after)
        cases answer with
        | error e => exact failedReadAlike moved e
        | ok found => exact acceptAlike simulates moved found

theorem performAlike {t : Tokenizer σ} {u : Tokenizer τ} (alike : t.Alike live spent u)
    (op : Operation) : (t.perform op).Alike live spent (u.perform op) := by
  have turns := nextAlike simulates alike
  cases op with
  | next => exact ⟨rfl,congrArg some turns.result,turns.tokenizer⟩
  | configure settings => exact ⟨rfl,rfl,{alike with settings := rfl}⟩
  | iterate =>
    have done : t.isDone = u.isDone := by simp only [isDone,alike.failed,alike.exhausted]
    simp only [perform,iterate,done]
    cases u.isDone with
    | true => exact ⟨rfl,rfl,alike⟩
    | false =>
      refine ⟨rfl,congrArg some turns.result,{turns.tokenizer with failed := ?_}⟩
      exact congrArg (fun result => !result.isOk) turns.result

theorem sessionAlike {t : Tokenizer σ} {u : Tokenizer τ} (alike : t.Alike live spent u)
    (ops : List Operation) :
    List.Forall₂ (Step.Alike live spent) (t.session ops) (u.session ops) := by
  induction ops generalizing t u with
  | nil => exact .nil
  | cons op ops ih =>
    have step := performAlike simulates alike op
    exact .cons step (ih step.tokenizer)

end Tokenizer
end
end Munch
