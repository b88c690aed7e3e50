import Mathlib.Data.String.Basic
import Munch.Proofs.Faultless
import Munch.Proofs.Reading
import Munch.Proofs.Simulation

/-! Sources that are read without a fault: one that takes no step which could fail, bytes
from a reader, and a text in memory that is sliced at an offset in bytes. The offset stays
between two characters, so the sliced text hands out what the text does. Main statement: for
a compiled grammar no query, and no session over any of these sources, meets a fault, and a
parked comment always has a marker to be closed and begins behind the place reached. -/
namespace Munch

theorem Trusted.unguarded (σ : Type) [CharSource σ] :
    Trusted (fun s : σ => .ok (CharSource.read s)) fun _ => True :=
  ⟨fun _ _ => rfl,fun _ _ => trivial⟩

theorem ByteFeed.trySkipOk {f f' : ByteFeed} {b : UInt8} (shows : f.peek = (.ok (some b),f')) :
    f'.trySkip = .ok f'.skip := by
  match f with
  | ⟨b::buffer,packets⟩ => cases shows; rfl
  | ⟨[],[]⟩ => cases shows
  | ⟨[],.bytes []::packets⟩ => cases shows
  | ⟨[],.bytes (b::data)::packets⟩ => cases shows; rfl
  | ⟨[],.failure e::packets⟩ => cases shows

namespace Utf8

theorem tryContinuationsOk (count : Nat) (feed : ByteFeed) :
    tryContinuations count feed = .ok (continuations count feed) := by
  fun_induction continuations count feed with
  | case1 => rfl
  | case2 count feed e feed' shows => rw [tryContinuations,shows]
  | case3 count feed feed' shows => rw [tryContinuations,shows]
  | case4 count feed b feed' shows continues tail feed'' rest ih =>
    simp [tryContinuations,shows,continues,ByteFeed.trySkipOk shows,ih,rest]
  | case5 count feed b feed' shows continues e feed'' rest ih =>
    simp [tryContinuations,shows,continues,ByteFeed.trySkipOk shows,ih,rest]
  | case6 count feed b feed' shows strange =>
    simp [tryContinuations,shows,strange]

theorem widthFits {lead : UInt8} {n : Nat} (wide : width lead = some n) : n ≤ 4 := by
  unfold width at wide
  repeat' split at wide
  all_goals cases wide
  all_goals decide

theorem tryFinishOk (lead : UInt8) (feed : ByteFeed) :
    tryFinish lead feed = .ok (finish lead feed) := by
  cases wide : width lead with
  | none => simp [tryFinish,finish,wide]
  | some n =>
    have fits := Nat.not_lt.mpr (widthFits wide)
    cases continued : continuations (n-1) feed with
    | mk answer feed' =>
      cases answer with
      | error e => simp [tryFinish,finish,wide,fits,tryContinuationsOk,continued]
      | ok tail =>
        cases made : assemble lead tail <;>
          simp [tryFinish,finish,wide,fits,tryContinuationsOk,continued,made]

theorem tryReadOk (feed : ByteFeed) : tryRead feed = .ok (read feed) := by
  cases shows : feed.peek with
  | mk answer feed' =>
    rcases answer with e | _ | lead
    · simp [tryRead,read,shows]
    · simp [tryRead,read,shows]
    · simp [tryRead,read,shows,ByteFeed.trySkipOk shows,tryFinishOk]

end Utf8

theorem Trusted.utf8 : Trusted Utf8Source.tryRead fun _ => True where
  reads s _ := by
    simp [Utf8Source.tryRead,Utf8.tryReadOk]
    rfl
  stays _ _ := trivial

/- A sliced text whose offset is just behind what has been taken of the text. -/
def SlicedText.Slices (s : SlicedText) (t : TextSource) : Prop :=
  ∃ taken, s.text = String.ofList (taken ++ t.remaining) ∧ s.offset = ⟨String.utf8Len taken⟩

namespace SlicedText

theorem ofStringSlices (text : String) : (SlicedText.mk text 0).Slices (.ofString text) :=
  ⟨[],String.ofList_toList.symm,rfl⟩

/- The offset is never within a character. -/
theorem Slices.valid {s : SlicedText} {t : TextSource} (slices : s.Slices t) :
    s.offset.isValid s.text = true := by
  obtain ⟨taken,text,offset⟩ := slices
  rw [String.Pos.Raw.isValid_eq_true_iff,String.Pos.Raw.isValid_iff_exists_append,text,offset]
  exact ⟨.ofList taken,.ofList t.remaining,String.ofList_append,(String.rawEndPos_ofList _).symm⟩

theorem Slices.left {s : SlicedText} {t : TextSource} (slices : s.Slices t) :
    s.remaining = String.ofList t.remaining := by
  obtain ⟨taken,text,offset⟩ := slices
  have rest := String.extract_of_valid taken t.remaining []
  rw [List.append_nil] at rest
  rw [remaining,text,offset,String.rawEndPos_ofList,String.utf8Len_append,rest]

theorem Slices.tryRemaining {s : SlicedText} {t : TextSource} (slices : s.Slices t) :
    s.tryRemaining = .ok (String.ofList t.remaining) := by
  rw [SlicedText.tryRemaining,if_pos slices.valid,slices.left]

theorem simulates : Simulates Slices Slices := by
  intro s t slices
  have read : CharSource.read s = s.shown t.remaining.head? := by
    simp only [CharSource.read,SlicedText.read,slices.left,String.toList_ofList]
  rw [read]
  obtain ⟨_ | ⟨ch,rest⟩⟩ := t
  · exact .finished slices
  · refine .character ?_
    obtain ⟨taken,text,offset⟩ := slices
    refine ⟨taken ++ [ch],text.trans (by simp),?_⟩
    simp [offset,String.Pos.Raw.add_char_eq]

end SlicedText

theorem Trusted.sliced : Trusted SlicedText.tryRead fun s => ∃ t, s.Slices t where
  reads s slices := by
    obtain ⟨t,slices⟩ := slices
    rw [SlicedText.tryRead,slices.tryRemaining,← slices.left]
    rfl
  stays s slices := by
    obtain ⟨t,slices⟩ := slices
    exact ⟨_,(SlicedText.simulates s t slices).after⟩

/- What can be asked of a grammar, asked without a fault. -/
structure Grammar.Queryable (g : Grammar) : Prop where
  next : ∀ state ch, g.tryNext state ch = .ok (g.next? state ch)
  byName : ∀ name, g.tryByName name = .ok (g.symbolByName? name)
  endSymbol : g.tryEnd = .ok g.endSymbol
  errorSymbol : g.tryError = .ok g.errorSymbol

theorem Draft.Compiled.queryable {d : Draft} {g : Grammar} (c : d.Compiled g) : g.Queryable :=
  ⟨c.tryNext,c.tryByName,Grammar.trySymbolOk c.endListed,Grammar.trySymbolOk c.errorListed⟩

namespace Tokenizer

/- A session that meets no fault and parks a comment only with a marker still to be closed,
and behind the place reached. -/
structure NeverFaults {σ : Type} [CharSource σ] (tryRead : σ → Except Fault (Answer × σ))
    (t : Tokenizer σ) (ops : List Operation) : Prop where
  runs : t.trySession tryRead ops = .ok (t.session ops)
  deep : ∀ step ∈ t.session ops, ∀ c, step.tokenizer.openComment = some c → 0 < c.depth
  behind : ∀ step ∈ t.session ops, ∀ c, step.tokenizer.openComment = some c →
    c.start.index ≤ step.tokenizer.position.index

theorem neverFaults {σ : Type} [CharSource σ] {tryRead : σ → Except Fault (Answer × σ)}
    {Safe : σ → Prop} {d : Draft} {g : Grammar} (compiled : d.Compiled g)
    (trusted : Trusted tryRead Safe) {source : σ} (safe : Safe source) (settings : Settings)
    (ops : List Operation) :
    ((ofSource g source).configure settings).NeverFaults tryRead ops := by
  have start : ((ofSource g source).configure settings).Clear g Safe := ⟨rfl,safe,nofun,nofun⟩
  have clear {step} (member : step ∈ ((ofSource g source).configure settings).session ops) :
      step.tokenizer.Clear g Safe := by
    obtain ⟨u,op,clear,rfl⟩ := sessionInvariant start
      (fun u op clear => performClear trusted clear op) member
    exact performClear trusted clear op
  exact ⟨trySessionOk compiled trusted start ops,fun step member => (clear member).deep,
    fun step member => (clear member).behind⟩

/- A step over a sliced text, and the same step over the text. -/
structure Slicing (a : Step SlicedText) (b : Step TextSource) : Prop where
  agrees : a.Agrees b
  left : a.tokenizer.close.tryRemaining = .ok (String.ofList b.tokenizer.close.remaining)

theorem slicedSession (g : Grammar) (settings : Settings) (text : String) (ops : List Operation) :
    List.Forall₂ Slicing (((ofSource g (SlicedText.mk text 0)).configure settings).session ops)
      ((reading g settings text).session ops) := by
  have alike := sessionAlike SlicedText.simulates
    (ofSourceAlike g settings (SlicedText.ofStringSlices text)) ops
  refine alike.imp fun a b steps => ⟨steps.agrees,?_⟩
  exact steps.tokenizer.head.input.related.tryRemaining

/- Nothing that can be done with a compiled grammar meets a fault, whatever the source. -/
theorem compiledFaultless {d : Draft} {g : Grammar} (compiles : d.compile = .ok g) :
    g.Queryable ∧
      (∀ text settings ops,
        ((ofSource g (SlicedText.mk text 0)).configure settings).NeverFaults SlicedText.tryRead ops ∧
        List.Forall₂ Slicing
          (((ofSource g (SlicedText.mk text 0)).configure settings).session ops)
          ((reading g settings text).session ops)) ∧
      (∀ feed settings ops,
        ((ofSource g (Utf8Source.mk feed)).configure settings).NeverFaults Utf8Source.tryRead ops) ∧
      ∀ (σ : Type) [CharSource σ] (source : σ) settings ops,
        ((ofSource g source).configure settings).NeverFaults (fun s => .ok (CharSource.read s))
          ops := by
  have compiled := Draft.compiled compiles
  refine ⟨compiled.queryable,?_,?_,?_⟩
  · intro text settings ops
    have slices : ∃ t, (SlicedText.mk text 0).Slices t := ⟨_,SlicedText.ofStringSlices text⟩
    exact ⟨neverFaults compiled .sliced slices settings ops,slicedSession g settings text ops⟩
  · intro feed settings ops
    exact neverFaults compiled .utf8 trivial settings ops
  · intro σ _ source settings ops
    exact neverFaults compiled (.unguarded σ) trivial settings ops

/- A nested comment is parked at depth two, and goes on without nesting. -/
theorem compiledFaultlessSample : ∃ (g : Grammar) (e : ReadError),
    Draft.sample.compile = .ok g ∧
      ((ofSource g (Script.mk [.ok (some '/'),.ok (some '*'),.ok (some '/'),.ok (some '*'),.error e,
          .ok (some '*'),.ok (some '/'),.ok none])).configure ⟨.contentOnly,true⟩).NeverFaults
        (fun s => .ok (CharSource.read s)) [.next,.configure ⟨.withDelimiters,false⟩,.next,.next] := by
  obtain ⟨g,compiles⟩ := Draft.sampleCompiles
  have ⟨_,_,_,custom⟩ := compiledFaultless compiles
  exact ⟨g,⟨.timedOut,""⟩,compiles,custom _ _ _ _⟩

end Tokenizer
end Munch
