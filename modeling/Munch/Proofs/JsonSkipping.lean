import Munch.Json.Skip
import Munch.Proofs.JsonNumbers
import Munch.Proofs.JsonStrings

/-! Values that are passed over. The brackets that are open around a value stand on a stack, so
that a value is followed through its items and members with the brackets around it kept open.
Main statements: a value of any depth, before what may follow one, is passed over up to its
end; a value in the place of a setting of another kind is refused. -/
namespace Munch.Json.Reader

/- What is done behind a value that has been passed over. -/
def goOn (p : Option (List Bracket) × List Cell) : Option (Unit × List Cell) :=
  match p.1 with
  | none => some ((),p.2)
  | some opened => result (skipValues opened) p.2

def comesTo (opened : List Bracket) (rest : List Char) : Option (Unit × List Cell) :=
  ((afterValue opened).result (cellsOfText rest)).bind goOn

theorem skipValuesAt {opened : List Bracket} {ch : Char} {w rest : List Char}
    (passed : Blanks w (ch::rest)) (solid : Solid ch) : result (skipValues opened) (cellsOfText w) =
      ((skipPart opened ch).result (cellsOfText rest)).bind goOn := by
  obtain ⟨head,shown,rfl,left⟩ := frontAt passed solid
  unfold result
  rw [skipValues,shown,← left]
  dsimp only
  cases skipPart opened head.ch head.rest with
  | error e => rfl
  | ok p =>
    obtain ⟨value,left,le⟩ := p
    cases value with
    | none => rfl
    | some opened => exact resultWiden _ _

theorem skipValuesScalar {opened : List Bracket} {ch : Char} {w a rest : List Char}
    (passed : Blanks w (ch::a)) (solid : Solid ch) (scalar : Bracket.ofOpener? ch = none)
    (skips : (skipScalar ch).result (cellsOfText a) = some ((),cellsOfText rest)) :
    result (skipValues opened) (cellsOfText w) = comesTo opened rest := by
  rw [skipValuesAt passed solid,skipPart,scalar]
  dsimp only
  rw [resultBind,skips,Option.bind_some,comesTo]

theorem skipValuesOpens {opened : List Bracket} {b : Bracket} {ch : Char} {w a : List Char}
    (passed : Blanks w (ch::a)) (solid : Solid ch) (opens : Bracket.ofOpener? ch = some b) :
    result (skipValues opened) (cellsOfText w) =
      ((afterOpener b opened).result (cellsOfText a)).bind goOn := by
  rw [skipValuesAt passed solid,skipPart,opens]

theorem closerSolid (b : Bracket) : Solid b.closer := by cases b <;> decide

theorem closes {opened : List Bracket} {b : Bracket} {w rest : List Char}
    (passed : Blanks w (b.closer::rest)) : comesTo (b::opened) w = comesTo opened rest := by
  have solid := closerSolid b
  simp only [comesTo,afterValue,resultBind,lookAt passed solid,Option.bind_some,if_true,
    eatAt solid.1]

theorem opensClosed {opened : List Bracket} {b : Bracket} {w rest : List Char}
    (passed : Blanks w (b.closer::rest)) :
    ((afterOpener b opened).result (cellsOfText w)).bind goOn = comesTo opened rest := by
  have solid := closerSolid b
  simp only [comesTo,afterOpener,resultBind,lookAt passed solid,Option.bind_some,if_true,
    eatAt solid.1]

/- The next part behind a comma, or behind the opening bracket. -/
def enters (b : Bracket) (opened : List Bracket) (w : List Char) : Option (Unit × List Cell) :=
  ((skipName b).result (cellsOfText w)).bind fun p => result (skipValues (b::opened)) p.2

theorem commaEnters {opened : List Bracket} {b : Bracket} {w rest : List Char}
    (passed : Blanks w (',' :: rest)) : comesTo (b::opened) w = enters b opened rest := by
  have other : ',' ≠ b.closer := by cases b <;> decide
  simp only [comesTo,afterValue,resultBind,lookAt passed (show Solid ',' by decide),
    Option.bind_some,if_neg other,if_true,eatAt (show Ascii ',' by decide),resultPure,
    Option.bind_assoc,enters,goOn]

theorem openerEnters {opened : List Bracket} {b : Bracket} {ch : Char} {w rest : List Char}
    (passed : Blanks w (ch::rest)) (solid : Solid ch) (other : ch ≠ b.closer) :
    ((afterOpener b opened).result (cellsOfText w)).bind goOn = enters b opened (ch::rest) := by
  simp only [afterOpener,resultBind,lookAt passed solid,Option.bind_some,if_neg other,resultPure,
    Option.bind_assoc,enters,goOn]

theorem entersBlanks {opened : List Bracket} {b : Bracket} {ch : Char} {w rest : List Char}
    (passed : Blanks w (ch::rest)) (solid : Solid ch) :
    enters b opened w = enters b opened (ch::rest) := by
  cases b with
  | square =>
    simp only [enters,skipName,resultPure,Option.bind_some]
    rw [skipValuesAt passed solid,skipValuesAt (.none _) solid]
  | curly =>
    simp only [enters,skipName,expect,resultBind,lookAt passed solid,
      lookAt (.none (ch::rest)) solid]

end Munch.Json.Reader

namespace Munch.Json
open Reader

/- The characters that a value can start with. -/
def Value.Starts : Value → Char → Prop
  | .null, ch => ch = 'n'
  | .flag value, ch => ch = if value then 't' else 'f'
  | .number, ch => IsDigit ch ∨ ch = '-'
  | .text _, ch => ch = '"'
  | .array _, ch => ch = '['
  | .object _, ch => ch = '\x7b'

theorem unsignedStarts {w rest : List Char} (number : Unsigned w rest) :
    ∃ ch v, w = ch::v ∧ IsDigit ch := by
  obtain ⟨whole,_,_⟩ := number
  cases whole with
  | zero => exact ⟨_,_,rfl,by decide⟩
  | positive digit => exact ⟨_,_,rfl,digit⟩

theorem valueStarts {v : Value} {w rest : List Char} (spelled : Spelled (.value v) w rest) :
    ∃ ch u, w = ch::u ∧ v.Starts ch := by
  cases spelled with
  | null | yes | no | text | emptyArray | array | emptyObject | object => exact ⟨_,_,rfl,rfl⟩
  | number number =>
    cases number with
    | negative => exact ⟨_,_,rfl,.inr rfl⟩
    | plain digits =>
      obtain ⟨ch,u,rfl,digit⟩ := unsignedStarts digits
      exact ⟨ch,u,rfl,.inl digit⟩

theorem digitSolid {ch : Char} (digit : IsDigit ch) : Solid ch := by
  have none : blanks.Forall fun ch => ¬ IsDigit ch := by decide
  exact ⟨digitAscii digit,fun blank => List.forall_iff_forall_mem.mp none ch blank digit⟩

theorem numberDiffers {ch c : Char} (starts : Value.number.Starts ch) (other : ¬ IsDigit c)
    (minus : c ≠ '-') : ch ≠ c := by
  rcases starts with digit | rfl
  · exact digitDiffers digit other
  · exact minus.symm

theorem Value.Starts.solid {v : Value} {ch : Char} (starts : v.Starts ch) :
    Solid ch ∧ ch ≠ ']' := by
  cases v with
  | number =>
    rcases starts with digit | rfl
    · exact ⟨digitSolid digit,digitDiffers digit (by decide)⟩
    · decide
  | flag value => cases value <;> cases starts <;> decide
  | null | text | array | object => cases starts; decide

theorem itemsStart {vs : List Value} {w rest : List Char} (spelled : Spelled (.items vs) w rest) :
    ∃ ch u, Blanks w (ch::u) ∧ Solid ch ∧ ch ≠ ']' := by
  have starts {v : Value} {rest : List Char} (item : Spelled (.item v) w rest) :
      ∃ ch u, Blanks w (ch::u) ∧ Solid ch ∧ ch ≠ ']' := by
    cases item with
    | item before value =>
      obtain ⟨ch,u,rfl,starts⟩ := valueStarts value
      exact ⟨ch,u,before,starts.solid⟩
  cases spelled with
  | lastItem item => exact starts item
  | nextItem item => exact starts item

theorem membersStart {ms : List (Option String × Value)} {w rest : List Char}
    (spelled : Spelled (.members ms) w rest) : ∃ u, Blanks w ('"' :: u) := by
  cases spelled with
  | lastMember member => cases member with | member before => exact ⟨_,before⟩
  | nextMember member => cases member with | member before => exact ⟨_,before⟩

theorem skipScalarNumber {ch : Char} (digit : IsDigit ch) : skipScalar ch = skipNumber ch := by
  have other {c : Char} (differs : ¬ IsDigit c) : ch ≠ c := digitDiffers digit differs
  -- `skipText` is a reader by its definition alone, which `rw` does not see through.
  exact (if_neg (other (by decide))).trans <| (if_neg (other (by decide))).trans <|
    (if_neg (other (by decide))).trans <| (if_neg (other (by decide))).trans
      (if_neg (other (by decide)))

theorem digitOpens {ch : Char} (digit : IsDigit ch) : Bracket.ofOpener? ch = none := by
  have other {c : Char} (differs : ¬ IsDigit c) : ch ≠ c := digitDiffers digit differs
  rw [Bracket.ofOpener?,if_neg (other (by decide)),if_neg (other (by decide))]

theorem skipNameAt {gs : List Glyph} {w a b rest : List Char} (before : Blanks w ('"' :: a))
    (name : Glyphs gs a b) (after : Blanks b (':' :: rest)) :
    (skipName .curly).result (cellsOfText w) = some ((),cellsOfText rest) := by
  rw [skipName,resultBind,expectAt before (by decide),Option.bind_some]
  refine (resultBind skipText _ _).trans ?_
  rw [skipTextAt name,Option.bind_some,expectAt after (by decide)]

/- What comes of passing over a part, with the brackets that are open around it. -/
def Passed : Part → List Char → List Char → Prop
  | .value _, w, rest => ∀ opened u, Blanks u w → Delimited rest →
    result (skipValues opened) (cellsOfText u) = comesTo opened rest
  | .item _, w, rest => Delimited rest → ∃ a, Blanks a rest ∧ ∀ opened,
    result (skipValues opened) (cellsOfText w) = comesTo opened a
  | .items _, w, rest => ∀ opened tail, rest = ']' :: tail →
    enters .square opened w = comesTo opened tail
  | .member _ _, w, rest => Delimited rest → ∃ a, Blanks a rest ∧ ∀ opened,
    enters .curly opened w = comesTo (.curly::opened) a
  | .members _, w, rest => ∀ opened tail, rest = '\x7d' :: tail →
    enters .curly opened w = comesTo opened tail

theorem passed {part : Part} {w rest : List Char} (spelled : Spelled part w rest) :
    Passed part w rest := by
  -- A bracket closes on the stack it was opened on, so a part has to be passed over for any
  -- stack: an item for the one around it, items and members up to the bracket that ends them.
  induction spelled with
  | null rest | yes rest | no rest =>
    exact fun opened u before _ => skipValuesScalar before (by decide) rfl
      (literalAt (by decide) rest)
  | number number =>
    intro opened u before delimited
    cases number with
    | plain digits =>
      obtain ⟨ch,v,rfl,digit⟩ := unsignedStarts digits
      refine skipValuesScalar before (digitSolid digit) (digitOpens digit) ?_
      rw [skipScalarNumber digit,numberAt digits delimited]
    | negative digits =>
      obtain ⟨ch,v,rfl,digit⟩ := unsignedStarts digits
      refine skipValuesScalar before (by decide) rfl ?_
      refine (resultBind char skipNumber _).trans ?_
      rw [charAt (digitAscii digit),Option.bind_some,numberAt digits delimited]
  | text glyphs =>
    exact fun opened u before _ => skipValuesScalar before (by decide) rfl (skipTextAt glyphs)
  | emptyArray inside =>
    intro opened u before _
    rw [skipValuesOpens (b := .square) before (by decide) rfl,opensClosed inside]
  | emptyObject inside =>
    intro opened u before _
    rw [skipValuesOpens (b := .curly) before (by decide) rfl,opensClosed inside]
  | array inside ih =>
    intro opened u before _
    obtain ⟨ch,v,start,solid,other⟩ := itemsStart inside
    rw [skipValuesOpens (b := .square) before (by decide) rfl,
      openerEnters (b := .square) start solid other,← entersBlanks start solid,ih opened _ rfl]
  | object inside ih =>
    intro opened u before _
    obtain ⟨v,start⟩ := membersStart inside
    have solid : Solid '"' := by decide
    rw [skipValuesOpens (b := .curly) before (by decide) rfl,
      openerEnters (b := .curly) start solid (by decide),← entersBlanks start solid,
      ih opened _ rfl]
  | item before value after ih =>
    intro delimited
    exact ⟨_,after,fun opened => ih opened _ before (delimitedBlanks after delimited)⟩
  | lastItem item ih =>
    rintro opened tail rfl
    obtain ⟨a,after,skips⟩ := ih (delimitedCons (by decide))
    rw [enters,skipName,resultPure,Option.bind_some,skips,closes (b := .square) after]
  | nextItem item others ih others' =>
    rintro opened tail rfl
    obtain ⟨a,after,skips⟩ := ih (delimitedCons (by decide))
    rw [enters,skipName,resultPure,Option.bind_some,skips,commaEnters after,others' opened _ rfl]
  | member before name after item ih =>
    intro delimited
    obtain ⟨a,behind,skips⟩ := ih delimited
    refine ⟨a,behind,fun opened => ?_⟩
    rw [enters,skipNameAt before name after,Option.bind_some,skips]
  | lastMember member ih =>
    rintro opened tail rfl
    obtain ⟨a,after,skips⟩ := ih (delimitedCons (by decide))
    rw [skips,closes (b := .curly) after]
  | nextMember member others ih others' =>
    rintro opened tail rfl
    obtain ⟨a,after,skips⟩ := ih (delimitedCons (by decide))
    rw [skips,commaEnters after,others' opened _ rfl]

theorem Reader.refusesValue {α : Type} (first : Char) : Refuses (refuseValue first : Reader α) := by
  unfold refuseValue
  split
  · exact refusesBind _ fun _ => refusesAll
  split
  · exact refusesBind _ fun _ => refusesAll
  split
  · exact refusesBind _ fun _ => refusesAll
  split
  · exact refusesBind _ fun _ => refusesAll
  split
  · exact refusesBind _ fun _ => refusesNumber _
  · exact refusesNumber _

end Munch.Json
