import Munch.Proofs.Reading

/-! What is answered over a text, as a function of the text and of the place where it
begins: a scan for each lexeme, and the end. Main statement: over a source that does not
fail this is what a run answers, so that a tokenizer carries nothing from one call to
the next but its place and the text that is left. A text can be cut where a lexeme
begins; what is answered in front of the cut and behind it is answered one after the
other. -/
namespace Munch

def transcript (g : Grammar) (settings : Settings) (k : Cursor) (text : List Char) : List Scan :=
  match _here : lexeme g settings text with
  | none => [⟨.endOfInput,⟨g.endSymbol,"",k.position⟩⟩]
  | some x =>
    x.scan k.position::
      transcript g settings (k.advanceAll (text.take x.length)) (text.drop x.length)
termination_by text.length
decreasing_by
  obtain ⟨positive,within⟩ := lexemeExtent _here
  rw [List.length_drop]
  omega

/- The scans of lexemes that follow one another at the front of a text. -/
def placed (k : Cursor) (text : List Char) : List Lexeme → List Scan
  | [] => []
  | x::lexemes =>
    x.scan k.position::placed (k.advanceAll (text.take x.length)) (text.drop x.length) lexemes

/- The lexemes that make up the front of a text, whose rest begins with another. -/
inductive Cuts (g : Grammar) (settings : Settings) (rest : List Char) :
    List Char → List Lexeme → Prop where
  | done : Cuts g settings rest [] []
  | more {front x lexemes} (here : lexeme g settings (front ++ rest) = some x)
      (within : x.length ≤ front.length)
      (behind : Cuts g settings rest (front.drop x.length) lexemes) :
      Cuts g settings rest front (x::lexemes)

/- Two scans that differ in their places only. -/
structure Scan.Alike (places : Position → Position → Prop) (a b : Scan) : Prop where
  message : a.message = b.message
  symbol : a.token.symbol = b.token.symbol
  text : a.token.text = b.token.text
  position : places a.token.position b.token.position

theorem Cursor.advanceAllTake {k : Cursor} {text : List Char} {count : Nat}
    (within : count ≤ text.length) :
    (k.advanceAll (text.take count)).position.index = k.position.index+count := by
  rw [advanceAllIndex,List.length_take_of_le within]

theorem placedLength (k : Cursor) (text : List Char) (lexemes : List Lexeme) :
    (placed k text lexemes).length = lexemes.length := by
  induction lexemes generalizing k text with
  | nil => rfl
  | cons x lexemes ih => rw [placed,List.length_cons,List.length_cons,ih]

section
variable {g : Grammar} {settings : Settings} {k : Cursor} {text : List Char}

theorem transcriptEnd (none : lexeme g settings text = none) :
    transcript g settings k text = [⟨.endOfInput,⟨g.endSymbol,"",k.position⟩⟩] := by
  rw [transcript]
  split
  · rfl
  · rename_i here
    rw [none] at here
    cases here

theorem transcriptMore {x : Lexeme} (found : lexeme g settings text = some x) :
    transcript g settings k text = x.scan k.position::
      transcript g settings (k.advanceAll (text.take x.length)) (text.drop x.length) := by
  rw [transcript]
  split <;> rename_i here <;> rw [found] at here <;> cases here
  rfl

theorem transcriptFrom {scan : Scan} (member : scan ∈ transcript g settings k text) :
    k.position.index ≤ scan.token.position.index := by
  fun_induction transcript g settings k text with
  | case1 k text here =>
    cases List.mem_singleton.mp member
    exact Nat.le_refl _
  | case2 k text x here ih =>
    rcases List.mem_cons.mp member with rfl | later
    · exact Nat.le_refl _
    · have further := ih later
      rw [Cursor.advanceAllTake (lexemeExtent here).2] at further
      omega

/- The first scan begins where the text does, and no other. -/
theorem transcriptFirst (g : Grammar) (settings : Settings) (k : Cursor) (text : List Char) :
    ∃ first later, transcript g settings k text = first::later ∧
      first.token.position = k.position ∧
      ∀ scan ∈ later, k.position.index < scan.token.position.index := by
  cases here : lexeme g settings text with
  | none => exact ⟨_,[],transcriptEnd here,rfl,fun scan member => (by cases member)⟩
  | some x =>
    refine ⟨_,_,transcriptMore here,rfl,?_⟩
    intro scan member
    obtain ⟨positive,within⟩ := lexemeExtent here
    have further := transcriptFrom member
    rw [Cursor.advanceAllTake within] at further
    omega

/- From another place the same is answered; the places part as the places behind each
beginning of the text do. -/
theorem transcriptAlike {places : Position → Position → Prop} {k k' : Cursor}
    (parts : ∀ run, run <+: text →
      places (k.advanceAll run).position (k'.advanceAll run).position) :
    List.Forall₂ (Scan.Alike places) (transcript g settings k text)
      (transcript g settings k' text) := by
  fun_induction transcript g settings k text generalizing k' with
  | case1 k text here =>
    rw [transcriptEnd here]
    exact .cons ⟨rfl,rfl,rfl,parts [] List.nil_prefix⟩ .nil
  | case2 k text x here ih =>
    rw [transcriptMore here]
    refine .cons ⟨rfl,rfl,rfl,parts [] List.nil_prefix⟩ (ih ?_)
    intro run begins
    rw [← Cursor.advanceAllAppend,← Cursor.advanceAllAppend]
    apply parts
    obtain ⟨rest,whole⟩ := begins
    refine ⟨rest,?_⟩
    rw [List.append_assoc,whole,List.take_append_drop]

end

namespace Cuts
variable {g : Grammar} {settings : Settings} {k : Cursor} {text front rest : List Char}
  {lexemes : List Lexeme}

theorem splits (cuts : Cuts g settings rest front lexemes) (k : Cursor) :
    transcript g settings k (front ++ rest) =
      placed k front lexemes ++ transcript g settings (k.advanceAll front) rest := by
  induction cuts generalizing k with
  | done => rfl
  | @more front x lexemes here within behind ih =>
    rw [transcriptMore here,List.take_append_of_le_length within,
      List.drop_append_of_le_length within,ih,← Cursor.advanceAllAppend,List.take_append_drop]
    rfl

theorem whole (cuts : Cuts g settings [] text lexemes) (k : Cursor) :
    transcript g settings k text = placed k text lexemes ++
      [⟨.endOfInput,⟨g.endSymbol,"",(k.advanceAll text).position⟩⟩] := by
  have split := cuts.splits k
  rwa [List.append_nil,transcriptEnd (lexemeNone.mpr rfl)] at split

theorem placedBefore (cuts : Cuts g settings rest front lexemes) {scan : Scan}
    (member : scan ∈ placed k front lexemes) :
    scan.token.position.index < k.position.index+front.length := by
  induction cuts generalizing k with
  | done => cases member
  | @more front x lexemes here within behind ih =>
    have positive := (lexemeExtent here).1
    rcases List.mem_cons.mp member with rfl | later
    · have starts : (x.scan k.position).token.position = k.position := rfl
      rw [starts]
      omega
    · have further := ih later
      rw [Cursor.advanceAllTake within,List.length_drop] at further
      omega

/- Where an answer begins, the text is cut. -/
theorem ofStart {scan : Scan} (member : scan ∈ transcript g settings k (front ++ rest))
    (starts : scan.token.position.index = k.position.index+front.length) :
    ∃ lexemes, Cuts g settings rest front lexemes := by
  generalize size : front.length = count at starts
  induction count using Nat.strongRecOn generalizing front k with
  | ind count ih =>
    cases here : lexeme g settings (front ++ rest) with
    | none =>
      obtain ⟨rfl,rfl⟩ := List.append_eq_nil_iff.mp (lexemeNone.mp here)
      exact ⟨[],.done⟩
    | some x =>
      obtain ⟨positive,whole⟩ := lexemeExtent here
      rw [transcriptMore here] at member
      rcases List.mem_cons.mp member with rfl | later
      · have begins : (x.scan k.position).token.position = k.position := rfl
        rw [begins] at starts
        have empty : front = [] := List.length_eq_zero_iff.mp (by omega)
        subst empty
        exact ⟨[],.done⟩
      · have further := transcriptFrom later
        rw [Cursor.advanceAllTake whole] at further
        have within : x.length ≤ front.length := by omega
        rw [List.drop_append_of_le_length within,List.take_append_of_le_length within] at later
        obtain ⟨lexemes,behind⟩ := ih (count-x.length) (by omega) later
          (by rw [List.length_drop,size]) (by rw [Cursor.advanceAllTake within]; omega)
        exact ⟨x::lexemes,.more here within behind⟩

/- Where an answer begins at the end of the front, the answers before it are those of the
front, and it is the first of those of the rest. -/
theorem ofSplit {earlier later : List Scan} {first : Scan}
    (whole : earlier ++ first::later = transcript g settings .start (front ++ rest))
    (starts : first.token.position.index = front.length) :
    ∃ lexemes, Cuts g settings rest front lexemes ∧ earlier = placed .start front lexemes ∧
      first::later = transcript g settings (Cursor.start.advanceAll front) rest ∧
      first.token.position = (Cursor.start.advanceAll front).position := by
  have index : Cursor.start.position.index = 0 := rfl
  have member : first ∈ transcript g settings .start (front ++ rest) := by
    rw [← whole]
    exact List.mem_append_right _ List.mem_cons_self
  obtain ⟨lexemes,cuts⟩ := ofStart member (by omega)
  obtain ⟨head,others,split,place,after⟩ :=
    transcriptFirst g settings (Cursor.start.advanceAll front) rest
  rw [Cursor.advanceAllIndex] at after
  rw [cuts.splits,split] at whole
  refine ⟨lexemes,cuts,?_⟩
  rcases List.append_eq_append_iff.mp whole with ⟨more,front',rest'⟩ | ⟨more,front',rest'⟩
  · cases more with
    | nil =>
      rw [List.append_nil] at front'
      obtain ⟨rfl,rfl⟩ := List.cons.inj rest'
      exact ⟨front'.symm,split.symm,place⟩
    | cons scan more =>
      obtain ⟨rfl,_⟩ := List.cons.inj rest'
      have among : first ∈ placed .start front lexemes := by
        rw [front']
        exact List.mem_append_right _ List.mem_cons_self
      have near := cuts.placedBefore among
      omega
  · cases more with
    | nil =>
      rw [List.append_nil] at front'
      obtain ⟨rfl,rfl⟩ := List.cons.inj rest'
      exact ⟨front',split.symm,place⟩
    | cons scan more =>
      obtain ⟨rfl,rfl⟩ := List.cons.inj rest'
      have further := after first (by simp)
      omega

end Cuts

namespace Tokenizer
variable {σ : Type} [CharSource σ]

/- The scans that a run answers, up to and including the end. -/
def Answers (t : Tokenizer σ) (scans : List Scan) : Prop :=
  ∃ turns, Run t turns ∧ turns.map Turn.result = scans.map .ok

theorem Stands.transcribed {t : Tokenizer σ} {g : Grammar} {settings : Settings}
    {text : List Char} {offset : Nat} {turns : List (Turn σ)} (run : Run t turns)
    (h : t.Stands g settings text offset) :
    turns.map Turn.result =
      (transcript g settings t.head.cursor (text.drop offset)).map .ok := by
  induction run generalizing offset with
  | @last t isEnd =>
    have done := h.ending isEnd
    have nothing : lexeme g settings (text.drop offset) = none :=
      lexemeNone.mpr (List.drop_of_length_le (Nat.le_of_eq done.symm))
    rw [transcriptEnd nothing,List.map_singleton,(h.atEnd done).1]
    rfl
  | @more t turns going rest ih =>
    obtain ⟨x,here⟩ := h.further going
    obtain ⟨result,_,further⟩ := h.takes here
    have cursor : t.next.tokenizer.head.cursor =
        t.head.cursor.advanceAll ((text.drop offset).take x.length) := by
      rw [further.cursor,h.cursor,← Cursor.advanceAllAppend,List.take_add]
    rw [List.map_cons,ih further,transcriptMore here,result,cursor,List.drop_drop]
    rfl

/- Over a source that fails now and then, the scans are those of the characters that it
delivers, and each failure is answered once. -/
theorem ofSourceTranscribed {source : σ} {d : Delivery} (delivers : Delivers source d)
    (g : Grammar) (settings : Settings) :
    ∃ turns, Run ((ofSource g source).configure settings) turns ∧
      turns.filterMap Turn.scan? = transcript g settings .start d.characters ∧
      turns.filterMap Turn.cause? = d.failures.map .readFailure := by
  obtain ⟨turns,run,causes,scans⟩ := ofSourceRun g settings delivers
  obtain ⟨settled,settledRun⟩ :=
    settledRun (t := ((ofSource g source).configure settings).settle d) rfl rfl rfl
  refine ⟨turns,run,?_,causes⟩
  rw [scans settled settledRun]
  exact Turn.scansOfResults ((settledStands g settings source d).transcribed settledRun)

theorem readingTranscribed {g : Grammar} {settings : Settings} {text : String}
    {turns : List (Turn TextSource)} (run : Run (reading g settings text) turns) :
    turns.map Turn.result = (transcript g settings .start text.toList).map .ok := by
  have transcribed := (readingStands g settings text).transcribed run
  rwa [List.drop_zero] at transcribed

theorem readingAnswers {g : Grammar} {settings : Settings} {text : String} {scans : List Scan} :
    (reading g settings text).Answers scans ↔
      scans = transcript g settings .start text.toList := by
  constructor
  · intro h
    obtain ⟨turns,run,same⟩ := h
    rw [readingTranscribed run] at same
    exact ((List.map_injective_iff.mpr fun _ _ => Except.ok.inj) same).symm
  · intro h
    obtain ⟨turns,run⟩ := readingRun g settings text
    exact ⟨turns,run,by rw [h]; exact readingTranscribed run⟩

end Tokenizer
end Munch
