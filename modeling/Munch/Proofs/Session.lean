import Munch.Proofs.Run

/-! Operations on a tokenizer in any order: calls for the next token, steps of the
iteration and changes of the settings. A session is what came of one operation after
the other. Main statements: an operation calls for a token once or leaves all but the
settings as it is, and what every operation keeps holds throughout a session. -/
namespace Munch

inductive Operation where
  | next
  | iterate
  | configure (settings : Settings)
  deriving DecidableEq, Repr

/- One operation, its answer if it has one, and the tokenizer after it. -/
structure Step (σ : Type) where
  operation : Operation
  result : Option (Except Error Scan)
  tokenizer : Tokenizer σ

namespace Tokenizer
variable {σ : Type} [CharSource σ]

def perform (t : Tokenizer σ) : Operation → Step σ
  | .next => ⟨.next,some t.next.result,t.next.tokenizer⟩
  | .iterate => match t.iterate with
    | none => ⟨.iterate,none,t⟩
    | some turn => ⟨.iterate,some turn.result,turn.tokenizer⟩
  | .configure settings => ⟨.configure settings,none,t.configure settings⟩

def session (t : Tokenizer σ) : List Operation → List (Step σ)
  | [] => []
  | op::ops => t.perform op :: session (t.perform op).tokenizer ops

/- All that an operation can come to. -/
inductive Performs (t : Tokenizer σ) : Step σ → Prop where
  | called (op failed) : Performs t ⟨op,some t.next.result,{t.next.tokenizer with failed}⟩
  | quiet (op settings) : Performs t ⟨op,none,t.configure settings⟩

theorem performs (t : Tokenizer σ) (op : Operation) : t.Performs (t.perform op) := by
  cases op with
  | next => exact .called .next t.next.tokenizer.failed
  | configure settings => exact .quiet _ settings
  | iterate =>
    simp only [perform,iterate]
    cases t.isDone with
    | true => exact .quiet _ t.settings
    | false => exact .called _ _

theorem performOperation (t : Tokenizer σ) (op : Operation) : (t.perform op).operation = op := by
  cases op with
  | next => rfl
  | configure => rfl
  | iterate => simp only [perform]; split <;> rfl

theorem sessionInvariant {Inv : Tokenizer σ → Prop} {t : Tokenizer σ} (start : Inv t)
    (keeps : ∀ u op, Inv u → Inv (u.perform op).tokenizer) {ops : List Operation} {step : Step σ}
    (member : step ∈ t.session ops) : ∃ u op, Inv u ∧ step = u.perform op := by
  induction ops generalizing t with
  | nil => cases member
  | cons op ops ih =>
    rcases List.mem_cons.mp member with first | later
    · exact ⟨t,op,start,first⟩
    · exact ih (keeps t op start) later

/- What a step establishes for the tokenizer after it, and every later step keeps, relates
it to each of the later steps. -/
theorem sessionPairwise {R : Step σ → Step σ → Prop} (Inv : Step σ → Tokenizer σ → Prop)
    (starts : ∀ (t : Tokenizer σ) op, Inv (t.perform op) (t.perform op).tokenizer)
    (keeps : ∀ earlier u op, Inv earlier u → Inv earlier (u.perform op).tokenizer)
    (relates : ∀ earlier u op, Inv earlier u → R earlier (u.perform op)) (t : Tokenizer σ)
    (ops : List Operation) : (t.session ops).Pairwise R := by
  induction ops generalizing t with
  | nil => exact .nil
  | cons op ops ih =>
    refine .cons (fun later member => ?_) (ih _)
    obtain ⟨u,op',holds,rfl⟩ := sessionInvariant (starts t op) (keeps (t.perform op)) member
    exact relates _ u op' holds

/- A source that meets no failure lets none be reported. -/
def Quiet (t : Tokenizer σ) : Prop := ∃ d, t.Yields d ∧ d.failures = []

theorem nextQuiet {t : Tokenizer σ} (quiet : t.Quiet) :
    t.next.tokenizer.Quiet ∧ ∃ scan, t.next.result = .ok scan := by
  obtain ⟨d,yields,none⟩ := quiet
  obtain ⟨d',resumes⟩ := nextResumes yields
  cases result : t.next.result with
  | error error =>
    obtain ⟨_,⟨e,_,failed⟩,_⟩ := resumes.interrupted error result
    rw [none] at failed
    cases failed
  | ok scan =>
    obtain ⟨still,_⟩ := resumes.answered scan result
    exact ⟨⟨d',resumes.yields,still.symm.trans none⟩,scan,rfl⟩

theorem performQuiet {t : Tokenizer σ} (quiet : t.Quiet) (op : Operation) :
    (t.perform op).tokenizer.Quiet ∧ ∀ error, (t.perform op).result ≠ some (.error error) := by
  obtain ⟨after,scan,answered⟩ := nextQuiet quiet
  have performs := t.performs op
  generalize t.perform op = step at performs ⊢
  cases performs with
  | called op failed =>
    refine ⟨after,fun error h => ?_⟩
    rw [answered] at h
    cases h
  | quiet op settings => exact ⟨quiet,nofun⟩

theorem sessionQuiet {t : Tokenizer σ} (quiet : t.Quiet) {ops : List Operation} {step : Step σ}
    (member : step ∈ t.session ops) (error : Error) : step.result ≠ some (.error error) := by
  obtain ⟨u,op,quiet,rfl⟩ :=
    sessionInvariant quiet (fun u op quiet => (performQuiet quiet op).1) member
  exact (performQuiet quiet op).2 error

end Tokenizer
end Munch
