import Munch.Proofs.Lexeme

/-! A run: the calls of a tokenizer up to and including the first that answers the end.
A tokenizer has one run at most. Main statements: an invariant of the calls that do not
answer the end holds at every call of a run; where nothing is left to be asked of a source,
there is a run. -/
namespace Munch

namespace Turn
variable {σ : Type}

def scan? (turn : Turn σ) : Option Scan := turn.result.toOption

def cause? (turn : Turn σ) : Option Cause :=
  match turn.result with
  | .ok _ => none
  | .error e => some e.cause

def IsEnd (turn : Turn σ) : Prop := ∃ scan, turn.result = .ok scan ∧ scan.message = .endOfInput

theorem scanOk {turn : Turn σ} {scan : Scan} (answers : turn.result = .ok scan) :
    turn.scan? = some scan := by
  rw [scan?,answers]; rfl

theorem causeOk {turn : Turn σ} {scan : Scan} (answers : turn.result = .ok scan) :
    turn.cause? = none := by
  rw [cause?,answers]

theorem IsEnd.of {τ : Type} {a : Turn σ} {b : Turn τ} (isEnd : a.IsEnd)
    (same : a.result = b.result) : b.IsEnd := by
  obtain ⟨scan,answered,isEnd⟩ := isEnd
  exact ⟨scan,same.symm.trans answered,isEnd⟩

theorem notEndOf {turn : Turn σ} {e : Error} (failed : turn.result = .error e) : ¬ turn.IsEnd := by
  intro isEnd
  obtain ⟨scan,answered,_⟩ := isEnd
  rw [failed] at answered
  cases answered

theorem goingOf {turn : Turn σ} {scan : Scan} (answers : turn.result = .ok scan)
    (going : scan.message ≠ .endOfInput) : ¬ turn.IsEnd := by
  intro isEnd
  obtain ⟨other,answered,isEnd⟩ := isEnd
  cases answers.symm.trans answered
  exact going isEnd

theorem scansOfResults {turns : List (Turn σ)} {scans : List Scan}
    (results : turns.map result = scans.map .ok) : turns.filterMap scan? = scans := by
  change turns.filterMap (Except.toOption ∘ result) = scans
  rw [← List.filterMap_map,results,List.filterMap_map]
  exact List.filterMap_some

/- A turn answers or fails. -/
theorem counted (turns : List (Turn σ)) :
    turns.length = (turns.filterMap scan?).length+(turns.filterMap cause?).length := by
  induction turns with
  | nil => rfl
  | cons turn turns ih =>
    rw [List.length_cons,ih]
    cases result : turn.result with
    | ok scan =>
      rw [List.filterMap_cons_some (scanOk result),List.filterMap_cons_none (causeOk result),
        List.length_cons]
      omega
    | error error =>
      have noScan : turn.scan? = none := by rw [scan?,result]; rfl
      have cause : turn.cause? = some error.cause := by rw [cause?,result]
      rw [List.filterMap_cons_none noScan,List.filterMap_cons_some cause,List.length_cons]
      omega

end Turn

inductive Run {σ : Type} [CharSource σ] : Tokenizer σ → List (Turn σ) → Prop where
  | last {t} (isEnd : t.next.IsEnd) : Run t [t.next]
  | more {t turns} (going : ¬ t.next.IsEnd) (rest : Run t.next.tokenizer turns) :
      Run t (t.next::turns)

namespace Run
variable {σ : Type} [CharSource σ] {t : Tokenizer σ} {turns : List (Turn σ)}

theorem unique {others : List (Turn σ)} (one : Run t turns) (two : Run t others) :
    turns = others := by
  induction one generalizing others with
  | last isEnd =>
    cases two with
    | last => rfl
    | more going => exact absurd isEnd going
  | more going rest ih =>
    cases two with
    | last isEnd => exact absurd isEnd going
    | more _ rest' => rw [ih rest']

theorem first (run : Run t turns) : ∃ rest, turns = t.next::rest := by
  cases run with
  | last => exact ⟨[],rfl⟩
  | more => exact ⟨_,rfl⟩

theorem second (run : Run t turns) (going : ¬ t.next.IsEnd) :
    ∃ rest, turns = t.next::t.next.tokenizer.next::rest := by
  cases run with
  | last isEnd => exact absurd isEnd going
  | more _ rest =>
    obtain ⟨tail,rfl⟩ := rest.first
    exact ⟨tail,rfl⟩

/- What holds of the tokenizer at the first call, and is kept by every call that does not
answer the end, holds at each call. -/
theorem invariant {Inv : Tokenizer σ → Prop} (start : Inv t)
    (keeps : ∀ u, Inv u → ¬ u.next.IsEnd → Inv u.next.tokenizer) (run : Run t turns)
    {i : Nat} {turn : Turn σ} (found : turns[i]? = some turn) :
    ∃ u, Inv u ∧ turn = u.next ∧ Run u (turns.drop i) := by
  induction run generalizing i with
  | last isEnd =>
    cases i with
    | zero => cases found; exact ⟨_,start,rfl,.last isEnd⟩
    | succ i => simp at found
  | more going rest ih =>
    cases i with
    | zero => cases found; exact ⟨_,start,rfl,.more going rest⟩
    | succ i => exact ih (keeps _ start going) (by simpa using found)

end Run

namespace Tokenizer
variable {σ : Type}

theorem atEndIsEnd (t : Tokenizer σ) : t.atEnd.IsEnd := ⟨_,rfl,rfl⟩

theorem finishingExhausted {α : Type} (t : Tokenizer σ) (message : Message)
    (events : α → OpenComment → List Event) (outcome : Except ReadError α × Head σ × OpenComment) :
    (t.finishing message events outcome).tokenizer.exhausted = t.exhausted := by
  obtain ⟨result,head,c⟩ := outcome
  cases result <;> rfl

theorem turnGoing {t : Tokenizer σ} {text : List Char} {x : Lexeme}
    (here : lexeme t.grammar t.settings text = some x) : ¬ (x.turn t).IsEnd :=
  Turn.goingOf rfl (lexemeMessage here)

variable [CharSource σ]

theorem finishCommentExhausted (t : Tokenizer σ) (c : OpenComment) :
    (t.finishComment c).tokenizer.exhausted = t.exhausted := by
  by_cases isLine : c.symbol.kind = .commentLineStart
  · rw [finishCommentLine isLine,finishingExhausted]
  · rw [finishCommentBlock isLine,finishingExhausted]

theorem acceptExhausted (t : Tokenizer σ) (found : Longest) :
    (t.accept found).tokenizer.exhausted = t.exhausted ∨ (t.accept found).IsEnd := by
  cases found with
  | atEnd => exact .inr t.atEndIsEnd
  | nothing => exact .inl rfl
  | found m =>
    left
    dsimp only [accept]
    split
    · exact finishCommentExhausted _ _
    · rfl

/- Only an answer of the end exhausts a tokenizer. -/
theorem nextLive {t : Tokenizer σ} (live : t.exhausted = false) (going : ¬ t.next.IsEnd) :
    t.next.tokenizer.exhausted = false := by
  cases parked : t.openComment with
  | some c => rw [nextParked parked,finishCommentExhausted]; exact live
  | none =>
    cases longest : t.head.input.longest t.grammar with
    | mk answer input =>
      have called := nextScanning parked live longest
      cases answer with
      | error e => rw [called]; exact live
      | ok found =>
        rw [called] at going ⊢
        rcases acceptExhausted {t with head := {t.head with input}} found with same | isEnd
        · exact same.trans live
        · exact absurd isEnd going

theorem settledRun {t : Tokenizer σ} (ended : t.head.input.ended = true)
    (closed : t.openComment = none) (live : t.exhausted = false) : ∃ turns, Run t turns := by
  -- Every lexeme takes a character, so what is left gets shorter.
  generalize size : t.head.input.pending.length = count
  induction count using Nat.strongRecOn generalizing t with
  | ind count ih =>
    have called := nextLexeme ended rfl closed live
    cases here : lexeme t.grammar t.settings t.head.input.pending with
    | none =>
      rw [here] at called
      exact ⟨_,.last (by rw [called]; exact t.atEndIsEnd)⟩
    | some x =>
      rw [here] at called
      obtain ⟨positive,within⟩ := lexemeExtent here
      have shorter : (x.turn t).tokenizer.head.input.pending.length < count := by
        simp only [Lexeme.turn,Head.consume,Input.drop,List.length_drop]
        omega
      obtain ⟨turns,rest⟩ := ih _ shorter (t := (x.turn t).tokenizer) ended closed live rfl
      exact ⟨_,.more (by rw [called]; exact turnGoing here) (by rw [called]; exact rest)⟩

end Tokenizer
end Munch
