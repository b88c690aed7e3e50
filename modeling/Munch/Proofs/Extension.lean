import Munch.Proofs.EndOfInput

/-! Another source in the place of the one that is read. It answers as that one does, while
a condition on that one is kept: that it has not reported the end, say, or that a budget has
not been used up. Main statement: where the condition is kept after each operation of a
session, the session is the same over either source, to the sources themselves. -/
namespace Munch
variable {σ τ : Type}

def Input.map (f : σ → τ) (i : Input σ) : Input τ := ⟨f i.source,i.pending,i.ended⟩

def Head.map (f : σ → τ) (h : Head σ) : Head τ := ⟨h.input.map f,h.cursor⟩

def Tokenizer.map (f : σ → τ) (t : Tokenizer σ) : Tokenizer τ :=
  ⟨t.grammar,t.settings,t.head.map f,t.openComment,t.exhausted,t.failed⟩

def Turn.map (f : σ → τ) (turn : Turn σ) : Turn τ :=
  ⟨turn.result,turn.events,turn.tokenizer.map f⟩

def Step.map (f : σ → τ) (step : Step σ) : Step τ :=
  ⟨step.operation,step.result,step.tokenizer.map f⟩

variable [CharSource σ] [CharSource τ]

/- What is kept of a source, by whether it has reported the end, was kept before it answered,
and then the source in its place answers alike. -/
structure Extends (f : σ → τ) (kept : Bool → σ → Prop) : Prop where
  character : ∀ {s ch s'}, CharSource.read s = (.ok (some ch),s') → kept false s' →
    kept false s ∧ CharSource.read (f s) = (.ok (some ch),f s')
  finished : ∀ {s s'}, CharSource.read s = (.ok none,s') → kept true s' →
    kept false s ∧ CharSource.read (f s) = (.ok none,f s')
  failure : ∀ {s e s'}, CharSource.read s = (.error e,s') → kept false s' →
    kept false s ∧ CharSource.read (f s) = (.error e,f s')

section
variable {f : σ → τ} {kept : Bool → σ → Prop} (larger : Extends f kept)
include larger

namespace Input

theorem peekExtends {i input : Input σ} {answer : Answer} (shown : i.peek = (answer,input))
    (still : kept input.ended input.source) : (i.map f).peek = (answer,input.map f) := by
  obtain ⟨source,pending,ended⟩ := i
  cases pending with
  | cons ch rest => cases shown; rfl
  | nil =>
    cases ended with
    | true => cases shown; rfl
    | false =>
      cases read : CharSource.read source with
      | mk given source' =>
        simp only [peek,read] at shown
        cases given with
        | error e =>
          cases shown
          simp only [peek,map,(larger.failure read still).2,Bool.false_eq_true,if_false]
        | ok ch =>
          cases ch with
          | none =>
            cases shown
            simp only [peek,map,(larger.finished read still).2,Bool.false_eq_true,if_false]
          | some ch =>
            cases shown
            simp only [peek,map,(larger.character read still).2,Bool.false_eq_true,if_false]

theorem readOnExtends {g : Grammar} {w : Walk} {source : σ} {taken : List Char}
    (still : kept (readOn g w source taken).2.ended (readOn g w source taken).2.source) :
    kept false source ∧ readOn g w (f source) taken =
      ((readOn g w source taken).1,(readOn g w source taken).2.map f) := by
  fun_induction readOn g w source taken with
  | case1 w source taken stuck => rw [readOnStuck stuck]; exact ⟨still,rfl⟩
  | case2 w source taken going ch source' read ih =>
    obtain ⟨before,same⟩ := ih still
    obtain ⟨first,answers⟩ := larger.character read before
    rw [readOnCharacter going answers]
    exact ⟨first,same⟩
  | case3 w source taken going source' read =>
    obtain ⟨first,answers⟩ := larger.finished read still
    rw [readOnFinished going answers]
    exact ⟨first,rfl⟩
  | case4 w source taken going e source' read =>
    obtain ⟨first,answers⟩ := larger.failure read still
    rw [readOnFailure going answers]
    exact ⟨first,rfl⟩

theorem walkExtends {g : Grammar} {i : Input σ}
    (still : kept (i.walk g).2.ended (i.walk g).2.source) :
    (i.map f).walk g = ((i.walk g).1,(i.walk g).2.map f) := by
  unfold walk at still ⊢
  dsimp only at still ⊢
  split at still
  · rename_i enough
    rw [if_pos enough]
    exact if_pos enough
  · rename_i short
    rw [if_neg short]
    exact (if_neg short).trans (readOnExtends larger still).2

theorem longestExtends {g : Grammar} {i input : Input σ} {found : Except ReadError Longest}
    (result : i.longest g = (found,input)) (still : kept input.ended input.source) :
    (i.map f).longest g = (found,input.map f) := by
  unfold longest at result ⊢
  cases walked : i.walk g with
  | mk answer input' =>
    rw [walked] at result
    cases answer with
    | error e =>
      cases result
      rw [walkExtends larger (by rw [walked]; exact still),walked]
    | ok w =>
      cases result
      rw [walkExtends larger (by rw [walked]; exact still),walked]
      rfl

end Input

theorem Head.movesKept {h h' : Head σ} (moves : h.Moves h')
    (still : kept h'.input.ended h'.input.source) : kept h.input.ended h.input.source := by
  induction moves with
  | refl => exact still
  | tail _ move ih =>
    apply ih
    cases move with
    | character read => exact (larger.character read still).1
    | finished read => exact (larger.finished read still).1
    | failure read => exact (larger.failure read still).1
    | consume => exact still

namespace OpenComment

theorem finishLineExtends {h : Head σ} {c : OpenComment}
    (still : kept (finishLine h c).2.1.input.ended (finishLine h c).2.1.input.source) :
    finishLine (h.map f) c =
      ((finishLine h c).1,(finishLine h c).2.1.map f,(finishLine h c).2.2) := by
  fun_induction finishLine h c with
  | case1 h c e input peek =>
    rw [finishLineFails (h := h.map f) (Input.peekExtends larger peek still)]
    rfl
  | case2 h c input peek =>
    rw [finishLineEnd (h := h.map f) (Input.peekExtends larger peek still)]
    rfl
  | case3 h c ch input peek ends =>
    rw [finishLineMore (h := h.map f) (Input.peekExtends larger peek still),if_pos ends]
    rfl
  | case4 h c ch input peek inside h' =>
    rename_i ih
    have before := Head.movesKept larger (.finishLine _ _) still
    rw [finishLineMore (h := h.map f) (Input.peekExtends larger peek before),if_neg inside]
    exact ih still

theorem finishBlockExtends {g : Grammar} {settings : Settings} {h : Head σ} {c : OpenComment}
    (still : kept (finishBlock g settings h c).2.1.input.ended
      (finishBlock g settings h c).2.1.input.source) :
    finishBlock g settings (h.map f) c = ((finishBlock g settings h c).1,
      (finishBlock g settings h c).2.1.map f,(finishBlock g settings h c).2.2) := by
  fun_induction finishBlock g settings h c with
  | case1 h c e input longest =>
    rw [finishBlockFails (h := h.map f) (Input.longestExtends larger longest still)]
    rfl
  | case2 h c found input longest h' =>
    rename_i reaction
    rw [finishBlockFound (h := h.map f) (Input.longestExtends larger longest still),reaction]
    rfl
  | case3 h c found input longest h' length =>
    rename_i reaction
    rw [finishBlockFound (h := h.map f) (Input.longestExtends larger longest still),reaction]
    rfl
  | case4 h c found input longest h' length depth =>
    rename_i reaction ih
    have before := Head.movesKept larger (.finishBlock _ _ _ _) still
    rw [finishBlockFound (h := h.map f) (Input.longestExtends larger longest before),reaction]
    exact ih still

end OpenComment

namespace Tokenizer

omit [CharSource σ] [CharSource τ] larger in
theorem finishingMap {α : Type} (f : σ → τ) (t : Tokenizer σ) (message : Message)
    (events : α → OpenComment → List Event) (outcome : Except ReadError α × Head σ × OpenComment) :
    (t.finishing message events outcome).tokenizer.head = outcome.2.1 ∧
      (t.map f).finishing message events (outcome.1,outcome.2.1.map f,outcome.2.2) =
        (t.finishing message events outcome).map f := by
  obtain ⟨result,head,c⟩ := outcome
  cases result <;> exact ⟨rfl,rfl⟩

theorem finishCommentExtends {t : Tokenizer σ} {c : OpenComment}
    (still : kept (t.finishComment c).tokenizer.head.input.ended
      (t.finishComment c).tokenizer.close) :
    (t.map f).finishComment c = (t.finishComment c).map f := by
  unfold close at still
  by_cases isLine : c.symbol.kind = .commentLineStart
  · rw [finishCommentLine isLine] at still ⊢
    rw [(finishingMap f _ _ _ _).1] at still
    rw [finishCommentLine isLine,← (finishingMap f _ _ _ _).2,
      ← OpenComment.finishLineExtends larger still]
    rfl
  · rw [finishCommentBlock isLine] at still ⊢
    rw [(finishingMap f _ _ _ _).1] at still
    rw [finishCommentBlock isLine,← (finishingMap f _ _ _ _).2,
      ← OpenComment.finishBlockExtends larger still]
    rfl

theorem acceptExtends {t : Tokenizer σ} {found : Longest}
    (still : kept (t.accept found).tokenizer.head.input.ended (t.accept found).tokenizer.close) :
    (t.map f).accept found = (t.accept found).map f := by
  cases found with
  | atEnd => rfl
  | nothing => rfl
  | found m =>
    simp only [accept] at still ⊢
    split at still
    · rename_i opens
      rw [if_pos opens,if_pos opens]
      exact finishCommentExtends larger still
    · rename_i plain
      rw [if_neg plain,if_neg plain]
      rfl

theorem nextExtends {t : Tokenizer σ}
    (still : kept t.next.tokenizer.head.input.ended t.next.tokenizer.close) :
    (t.map f).next = t.next.map f := by
  cases parked : t.openComment with
  | some c =>
    rw [nextParked parked] at still ⊢
    rw [nextParked (t := t.map f) parked]
    exact finishCommentExtends larger still
  | none =>
    cases done : t.exhausted with
    | true =>
      rw [nextExhausted parked done,nextExhausted (t := t.map f) parked done]
      rfl
    | false =>
      cases longest : t.head.input.longest t.grammar with
      | mk answer input =>
        rw [nextScanning parked done longest] at still ⊢
        cases answer with
        | error e =>
          rw [nextScanning (t := t.map f) parked done (Input.longestExtends larger longest still)]
          rfl
        | ok found =>
          have calls := acceptCalls (t := {t with head := {t.head with input}}) parked found
          have before := Head.movesKept larger calls.moves still
          rw [nextScanning (t := t.map f) parked done (Input.longestExtends larger longest before)]
          exact acceptExtends larger still

theorem performExtends {t : Tokenizer σ} {op : Operation}
    (still : kept (t.perform op).tokenizer.head.input.ended (t.perform op).tokenizer.close) :
    (t.map f).perform op = (t.perform op).map f := by
  cases op with
  | next =>
    simp only [perform,nextExtends larger still]
    rfl
  | configure settings => rfl
  | iterate =>
    have done : (t.map f).isDone = t.isDone := rfl
    simp only [perform,iterate,done] at still ⊢
    cases isDone : t.isDone with
    | true => rfl
    | false =>
      rw [isDone] at still
      simp only [nextExtends larger still]
      rfl

theorem sessionExtends {t : Tokenizer σ} {ops : List Operation}
    (still : ∀ step ∈ t.session ops, kept step.tokenizer.head.input.ended step.tokenizer.close) :
    (t.map f).session ops = (t.session ops).map (Step.map f) := by
  induction ops generalizing t with
  | nil => rfl
  | cons op ops ih =>
    obtain ⟨first,later⟩ := List.forall_mem_cons.mp still
    rw [session,performExtends larger first,session,List.map_cons,← ih later]
    rfl

end Tokenizer
end
end Munch
