import Munch.Proofs.Places
import Munch.Proofs.Transcript

/-! Starting again at a token. A place behind two texts is the place behind the second,
seen from the one behind the first, unless a pair of carriage return and line feed lies
across them. Main statement: where an answer begins in a text, a tokenizer that is given
the rest alone answers the same from there on, at the places so translated. -/
namespace Munch

/- No pair of carriage return and line feed lies across two texts. -/
def Text.Parted (u v : List Char) : Prop := ¬ (u.getLast? = some '\r' ∧ v.head? = some '\n')

instance (u v : List Char) : Decidable (Text.Parted u v) := inferInstanceAs (Decidable (¬ _))

theorem Text.Parted.beginning {u v run : List Char} (parted : Parted u v) (begins : run <+: v) :
    Parted u run := by
  intro pair
  obtain ⟨rest,whole⟩ := begins
  refine parted ⟨pair.1,?_⟩
  rw [← whole,List.head?_append,pair.2]
  rfl

namespace Position

/- A place in a text that begins at another place. Its column counts from there as long as
it is in the first line. -/
def beyond (base p : Position) : Position :=
  ⟨base.index+p.index,base.line+p.line-1,if p.line = 1 then base.column+p.column-1 else p.column⟩

theorem advanceBeyond {base p : Position} {previous own : Option Char} {ch : Char}
    (line : 1 ≤ p.line) (column : 1 ≤ p.column)
    (pair : ch = '\n' → (previous = some '\r' ↔ own = some '\r')) :
    (base.beyond p).advance previous ch = base.beyond (p.advance own ch) := by
  have below : base.line+p.line-1+1 = base.line+(p.line+1)-1 := by omega
  have started : p.line ≠ 0 := by omega
  by_cases cr : ch = '\r'
  · simp [advance,beyond,cr,below,started,Nat.add_assoc]
  · by_cases lf : ch = '\n'
    · by_cases pairs : own = some '\r'
      · simp [advance,beyond,lf,(pair lf).mpr pairs,pairs,Nat.add_assoc]
      · have parts : previous ≠ some '\r' := mt (pair lf).mp pairs
        simp [advance,beyond,lf,parts,pairs,below,started,Nat.add_assoc]
    · have right : base.column+p.column-1+1 = base.column+(p.column+1)-1 := by omega
      simp only [advance,beyond,cr,lf,if_false,Nat.add_assoc]
      split <;> simp only [right]

theorem afterSnoc (text : List Char) (ch : Char) :
    after (text ++ [ch]) = (after text).advance text.getLast? ch := by
  have previous := (Cursor.advanceAllColumn text.reverse).1
  rw [List.reverse_reverse,List.head?_reverse] at previous
  rw [← Cursor.advanceAllPlace,← Cursor.advanceAllPlace,Cursor.advanceAllAppend,← previous]
  rfl

theorem afterAppend {u v : List Char} (parted : Text.Parted u v) :
    after (u ++ v) = (after u).beyond (after v) := by
  induction v using List.reverseRecOn with
  | nil => rw [List.append_nil]; rfl
  | append_singleton v ch ih =>
    have line : 1 ≤ (after v).line := Nat.le_add_right_of_le (Nat.le_add_right 1 _)
    have column : 1 ≤ (after v).column := Nat.le_add_right 1 _
    rw [← List.append_assoc,afterSnoc,afterSnoc,ih (parted.beginning (List.prefix_append v [ch]))]
    refine advanceBeyond line column fun lf => ?_
    cases v with
    | nil =>
      -- The one place at which the character before is not the same for both.
      subst lf
      rw [List.append_nil]
      exact iff_of_false (fun cr => parted ⟨cr,rfl⟩) nofun
    | cons first v => rw [List.getLast?_append_of_ne_nil _ (List.cons_ne_nil first v)]

end Position

namespace Tokenizer

theorem readingRestarts (g : Grammar) (settings : Settings) {u v : String}
    {earlier later : List Scan} {first : Scan}
    (answers : (reading g settings (u ++ v)).Answers (earlier ++ first::later))
    (starts : first.token.position.index = u.length)
    (parted : Text.Parted u.toList v.toList) :
    ∃ fresh, (reading g settings v).Answers fresh ∧
      List.Forall₂ (Scan.Alike fun there here => there = first.token.position.beyond here)
        (first::later) fresh := by
  have whole := readingAnswers.mp answers
  rw [String.toList_append] at whole
  rw [← String.length_toList] at starts
  obtain ⟨_,_,_,rest,place⟩ := Cuts.ofSplit whole starts
  refine ⟨_,readingAnswers.mpr rfl,?_⟩
  rw [rest,place]
  apply transcriptAlike
  intro run begins
  rw [← Cursor.advanceAllAppend,Cursor.advanceAllPlace,Cursor.advanceAllPlace,
    Cursor.advanceAllPlace]
  exact Position.afterAppend (parted.beginning begins)

/- A text cut behind a line. -/
theorem readingRestartsSample : ∃ (g : Grammar) (earlier later : List Scan) (first : Scan),
    Draft.sample.compile = .ok g ∧
      (reading g {} ("\n" ++ "ab")).Answers (earlier ++ first::later) ∧
      first.token.position = ⟨1,2,1⟩ ∧ Text.Parted "\n".toList "ab".toList ∧
      ∃ fresh, (reading g {} "ab").Answers fresh ∧
        List.Forall₂ (Scan.Alike fun there here => there = first.token.position.beyond here)
          (first::later) fresh := by
  obtain ⟨g,compiles⟩ := Draft.sampleCompiles
  have walked : ['\n','a','b'].foldl (Walk.step g) (.start g) = ⟨none,0,none⟩ :=
    Draft.ofCompile (f := fun g => ['\n','a','b'].foldl (Walk.step g) (.start g)) compiles (by cbv)
  have feed : lexeme g {} ['\n','a','b'] =
      some ⟨.lexicalError,g.errorSymbol,['\n'],1,false⟩ := by
    rw [lexeme,Grammar.longest,Walk.runEqFoldl,walked]
    rfl
  obtain ⟨first,later,split,place,_⟩ :=
    transcriptFirst g {} (Cursor.start.advanceAll ['\n']) ['a','b']
  have answers : (reading g {} ("\n" ++ "ab")).Answers ([_] ++ first::later) :=
    readingAnswers.mpr ((congrArg _ split).symm.trans (transcriptMore feed).symm)
  have parted : Text.Parted "\n".toList "ab".toList := by decide
  exact ⟨g,_,later,first,compiles,answers,place,parted,
    readingRestarts g {} answers (congrArg Position.index place) parted⟩

end Tokenizer
end Munch
