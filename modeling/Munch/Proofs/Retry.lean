import Munch.Proofs.Run
import Munch.Proofs.Wiring

/-! A caller that retries. Called again after each failure, a tokenizer answers what it
would answer had its source not failed, and reports each failure of the source once, in
order and unchanged, wherever the failures fall. -/
namespace Munch

/- Calls that fail, and the tokenizer after them. -/
inductive Fails {σ : Type} [CharSource σ] : Tokenizer σ → List (Turn σ) → Tokenizer σ → Prop where
  | none (t) : Fails t [] t
  | once {t e turns u} (failed : t.next.result = .error e) (rest : Fails t.next.tokenizer turns u) :
      Fails t (t.next::turns) u

namespace Fails
variable {σ : Type} [CharSource σ] {t u : Tokenizer σ} {failed turns : List (Turn σ)}

theorem run (fails : Fails t failed u) (run : Run u turns) : Run t (failed ++ turns) := by
  induction fails with
  | none => exact run
  | once error rest ih => exact .more (Turn.notEndOf error) (ih run)

theorem noScan (fails : Fails t failed u) : failed.filterMap Turn.scan? = [] := by
  induction fails with
  | none => rfl
  | once error rest ih =>
    rw [List.filterMap_cons,Turn.scan?,error]
    exact ih

end Fails

namespace Tokenizer
variable {σ : Type} [CharSource σ]

/- Retried until it answers, a call answers as it would on the settled tokenizer. -/
theorem retried {t : Tokenizer σ} {d : Delivery} (yields : t.Yields d)
    (live : t.exhausted = false) :
    ∃ failed u d' scan, Fails t failed u ∧ u.Yields d' ∧ u.exhausted = false ∧
      u.next.result = .ok scan ∧ (u.settle d').next = (t.settle d).next ∧
      d.failures.map .readFailure = failed.filterMap Turn.cause? ++ d'.failures.map .readFailure := by
  -- Each call that fails uses up one failure of the source, so they bound the retries.
  generalize total : d.failures = failures
  induction failures generalizing t d with
  | nil =>
    obtain ⟨d',resumes⟩ := nextResumes yields
    cases result : t.next.result with
    | ok scan => exact ⟨[],t,d,scan,.none t,yields,live,result,rfl,by rw [total]; rfl⟩
    | error error =>
      obtain ⟨_,⟨e,_,failed⟩,_⟩ := resumes.interrupted error result
      rw [total] at failed
      cases failed
  | cons failure rest ih =>
    obtain ⟨d',resumes⟩ := nextResumes yields
    cases result : t.next.result with
    | ok scan => exact ⟨[],t,d,scan,.none t,yields,live,result,rfl,by rw [total]; rfl⟩
    | error error =>
      obtain ⟨_,⟨e,cause,failed⟩,same⟩ := resumes.interrupted error result
      rw [total] at failed
      obtain ⟨rfl,left⟩ := List.cons.inj failed
      obtain ⟨turns,u,d'',scan,fails,yields',live',answers,same',failures⟩ :=
        ih resumes.yields (nextLive live (Turn.notEndOf result)) left.symm
      refine ⟨t.next::turns,u,d'',scan,.once result fails,yields',live',answers,same'.trans same,?_⟩
      have reported : t.next.cause? = some (.readFailure failure) := by
        rw [Turn.cause?,result,cause]
      rw [List.map_cons,failures,List.filterMap_cons,reported]
      rfl

theorem answeredSettled {t : Tokenizer σ} {d : Delivery} {scan : Scan} (yields : t.Yields d)
    (live : t.exhausted = false) (answers : t.next.result = .ok scan) :
    ∃ d', t.next.tokenizer.Yields d' ∧ d.failures = d'.failures ∧
      (t.settle d).next = ⟨.ok scan,t.next.events,t.next.tokenizer.settle d'⟩ ∧
      (t.next.IsEnd → d'.failures = []) := by
  obtain ⟨d',resumes⟩ := nextResumes yields
  obtain ⟨quiet,same⟩ := resumes.answered scan answers
  refine ⟨d',resumes.yields,quiet,same,?_⟩
  intro isEnd
  obtain ⟨scan',answered,isEnd⟩ := isEnd
  rcases resumes.finished scan' answered isEnd with done | nothing
  · rw [live] at done; cases done
  · rw [nothing]; rfl

/- Retried after each failure, a tokenizer runs as it would with everything read ahead. -/
theorem retriedRun {s : Tokenizer TextSource} {settled : List (Turn TextSource)}
    (run : Run s settled) {t : Tokenizer σ} {d : Delivery} (yields : t.Yields d)
    (live : t.exhausted = false) (same : (t.settle d).next = s.next) :
    ∃ turns, Run t turns ∧ turns.filterMap Turn.scan? = settled.filterMap Turn.scan? ∧
      turns.filterMap Turn.cause? = d.failures.map .readFailure := by
  induction run generalizing t d with
  | @last s isEnd =>
    obtain ⟨failed,u,d',scan,fails,yields',live',answers,same',failures⟩ := retried yields live
    obtain ⟨d'',_,quiet,settled,finished⟩ := answeredSettled yields' live' answers
    rw [same',same] at settled
    have alike : s.next.result = u.next.result := by rw [settled,answers]
    have ended := isEnd.of alike
    refine ⟨failed ++ [u.next],fails.run (.last ended),?_,?_⟩
    · rw [List.filterMap_append,fails.noScan,List.nil_append,List.filterMap_cons,
        List.filterMap_cons,Turn.scanOk answers,Turn.scanOk (alike.trans answers)]
      rfl
    · rw [failures,quiet,finished ended,List.filterMap_append,List.filterMap_cons,
        Turn.causeOk answers]
      rfl
  | @more s settledRest going rest ih =>
    obtain ⟨failed,u,d',scan,fails,yields',live',answers,same',failures⟩ := retried yields live
    obtain ⟨d'',yields'',quiet,settled,_⟩ := answeredSettled yields' live' answers
    rw [same',same] at settled
    have alike : s.next.result = u.next.result := by rw [settled,answers]
    have further : ¬ u.next.IsEnd := fun isEnd => going (isEnd.of alike.symm)
    obtain ⟨turns,run,scans,causes⟩ := ih yields'' (nextLive live' further) (by rw [settled])
    refine ⟨failed ++ u.next::turns,fails.run (.more further run),?_,?_⟩
    · rw [List.filterMap_append,fails.noScan,List.nil_append,List.filterMap_cons,
        List.filterMap_cons,Turn.scanOk answers,Turn.scanOk (alike.trans answers),scans]
    · rw [failures,quiet,List.filterMap_append,List.filterMap_cons,Turn.causeOk answers,causes]

theorem ofSourceYields {d : Delivery} {source : σ} (g : Grammar) (settings : Settings)
    (delivers : Delivers source d) : ((ofSource g source).configure settings).Yields d :=
  .inr ⟨rfl,delivers⟩

/- What a caller sees that calls again until the end, whatever the source delivers. -/
theorem ofSourceRun {d : Delivery} {source : σ} (g : Grammar) (settings : Settings)
    (delivers : Delivers source d) :
    ∃ turns, Run ((ofSource g source).configure settings) turns ∧
      turns.filterMap Turn.cause? = d.failures.map .readFailure ∧
      ∀ settled, Run (((ofSource g source).configure settings).settle d) settled →
        turns.filterMap Turn.scan? = settled.filterMap Turn.scan? := by
  obtain ⟨settled,run⟩ := settledRun (t := ((ofSource g source).configure settings).settle d)
    rfl rfl rfl
  obtain ⟨turns,retried,scans,causes⟩ :=
    retriedRun run (ofSourceYields g settings delivers) rfl rfl
  refine ⟨turns,retried,causes,?_⟩
  intro others run'
  rw [run'.unique run,scans]

theorem failuresTransparent {τ : Type} [CharSource τ] (g : Grammar) (settings : Settings)
    {answers : Delivery} {source : σ} {clean : τ} (delivers : Delivers source answers)
    (cleaned : Delivers clean answers.withoutFailures) :
    ∃ turns cleanTurns, Run ((ofSource g source).configure settings) turns ∧
      Run ((ofSource g clean).configure settings) cleanTurns ∧
      turns.filterMap Turn.scan? = cleanTurns.filterMap Turn.scan? ∧
      turns.filterMap Turn.cause? = answers.failures.map .readFailure ∧
      ∀ turn ∈ cleanTurns, ∃ scan, turn.result = .ok scan := by
  obtain ⟨turns,run,causes,scans⟩ := ofSourceRun g settings delivers
  obtain ⟨cleanTurns,cleanRun,cleanCauses,cleanScans⟩ := ofSourceRun g settings cleaned
  have same : ((ofSource g clean).configure settings).settle answers.withoutFailures =
      ((ofSource g source).configure settings).settle answers := by
    simp only [settle,configure,ofSource,Head.settle,Input.settle,
      Delivery.charactersWithoutFailures]
  obtain ⟨settled,settledRun⟩ := settledRun
    (t := ((ofSource g source).configure settings).settle answers) rfl rfl rfl
  refine ⟨turns,cleanTurns,run,cleanRun,?_,causes,?_⟩
  · rw [scans settled settledRun,cleanScans settled (by rw [same]; exact settledRun)]
  · intro turn member
    rw [Delivery.failuresWithoutFailures,List.map_nil,List.filterMap_eq_nil_iff] at cleanCauses
    have quiet := cleanCauses turn member
    cases result : turn.result with
    | ok scan => exact ⟨scan,rfl⟩
    | error e => rw [Turn.cause?,result] at quiet; cases quiet

/- A source that fails within the marker that opens a comment, and twice within the comment. -/
theorem failuresTransparentSample : ∃ (g : Grammar) (e : ReadError),
    Draft.sample.compile = .ok g ∧ ∃ turns cleanTurns,
      Run ((ofSource g (Script.mk [.ok (some '/'),.error e,.ok (some '*'),.ok (some 'a'),.error e,
        .error e,.ok (some '*'),.ok (some '/'),.ok none])).configure {}) turns ∧
      Run ((ofSource g (TextSource.ofString "/*a*/")).configure {}) cleanTurns ∧
      turns.filterMap Turn.scan? = cleanTurns.filterMap Turn.scan? ∧
      turns.filterMap Turn.cause? = [.readFailure e,.readFailure e,.readFailure e] ∧
      ∀ turn ∈ cleanTurns, ∃ scan, turn.result = .ok scan := by
  obtain ⟨g,compiles⟩ := Draft.sampleCompiles
  let e : ReadError := ⟨.timedOut,""⟩
  let answers : Delivery := [.ok '/',.error e,.ok '*',.ok 'a',.error e,.error e,.ok '*',.ok '/']
  exact ⟨g,e,compiles,failuresTransparent g {} (Script.delivers answers [])
    (TextSource.delivers ['/','*','a','*','/'])⟩

end Tokenizer
end Munch
