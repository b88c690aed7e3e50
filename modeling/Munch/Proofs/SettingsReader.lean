import Munch.Proofs.Decoders
import Munch.Proofs.JsonSkipping
import Munch.Settings.Document

/-! The reader of settings on an object. Each member changes what has been given before it, or
is refused. Main statement: the reader is a decoder of what is declared about settings, and as
such does what is assumed of any. -/
namespace Munch

namespace Json

namespace Value

def null? : Value → Option Unit
  | .null => some ()
  | _ => none

def flag? : Value → Option Bool
  | .flag value => some value
  | _ => none

theorem flagIff {v : Value} {value : Bool} : v.flag? = some value ↔ v = .flag value := by
  cases v <;> simp [flag?]

def name? : Value → Option String
  | .text name => name
  | .object [(name,.null)] => name
  | _ => none

theorem nameIff {v : Value} {name : String} : v.name? = some name ↔ v.Names name := by
  constructor
  · intro is
    unfold name? at is
    split at is
    · exact .inl (congrArg Value.text is)
    · exact .inr (by rw [is])
    · cases is
  · rintro (rfl | rfl) <;> rfl

def commentText? (v : Value) : Option CommentText := v.name?.bind CommentText.ofName?

end Value

end Json

namespace Settings
open Json
open Json.Reader

/-! Values of the known members. -/

theorem flagAt {v : Value} {w a rest : List Char} (before : Blanks w a)
    (spelled : Spelled (.value v) a rest) :
    readFlag.result (cellsOfText w) = v.flag?.map fun value => (value,cellsOfText rest) := by
  have refused {ch : Char} {u : List Char} (starts : v.Starts ch) (other : ch ≠ 't' ∧ ch ≠ 'f')
      (before : Blanks w (ch::u)) : readFlag.result (cellsOfText w) = none := by
    rw [readFlag,resultBind,lookAt before starts.solid.1,Option.bind_some,if_neg other.1,
      if_neg other.2]
    exact refusesBind _ (fun _ => refusesValue ch) _
  cases spelled with
  | yes =>
    have read : (literal ['r','u','e']).result (cellsOfText ('r' :: 'u' :: 'e' :: rest)) = _ :=
      literalAt (by decide) rest
    simp only [readFlag,resultBind,lookAt before (by decide),Option.bind_some,if_true,
      eatAt (show Ascii 't' by decide),read]
    rfl
  | no =>
    have read : (literal ['a','l','s','e']).result
        (cellsOfText ('a' :: 'l' :: 's' :: 'e' :: rest)) = _ := literalAt (by decide) rest
    simp only [readFlag,resultBind,lookAt before (by decide),Option.bind_some,if_true,
      if_neg (show 'f' ≠ 't' by decide),eatAt (show Ascii 'f' by decide),read]
    rfl
  | null | text | emptyArray | array | emptyObject | object => exact refused rfl (by decide) before
  | number number =>
    obtain ⟨ch,u,rfl,starts⟩ := valueStarts (.number number)
    exact refused starts ⟨numberDiffers starts (by decide) (by decide),
      numberDiffers starts (by decide) (by decide)⟩ before

theorem nullAt {v : Value} {w a rest : List Char} (before : Blanks w a)
    (spelled : Spelled (.value v) a rest) :
    readNull.result (cellsOfText w) = v.null?.map fun _ => ((),cellsOfText rest) := by
  have refused {ch : Char} {u : List Char} (starts : v.Starts ch) (other : ch ≠ 'n')
      (before : Blanks w (ch::u)) : readNull.result (cellsOfText w) = none := by
    rw [readNull,resultBind,lookAt before starts.solid.1,Option.bind_some,if_neg other]
    exact refusesBind _ (fun _ => refusesValue ch) _
  cases spelled with
  | null =>
    have read : (literal ['u','l','l']).result (cellsOfText ('u' :: 'l' :: 'l' :: rest)) = _ :=
      literalAt (by decide) rest
    simp only [readNull,resultBind,lookAt before (by decide),Option.bind_some,if_true,
      eatAt (show Ascii 'n' by decide)]
    exact read
  | yes | no | text | emptyArray | array | emptyObject | object =>
    exact refused rfl (by decide) before
  | number number =>
    obtain ⟨ch,u,rfl,starts⟩ := valueStarts (.number number)
    exact refused starts (numberDiffers starts (by decide) (by decide)) before

theorem readNameAt {gs : List Glyph} {w a rest : List Char} (before : Blanks w ('"' :: a))
    (glyphs : Glyphs gs a rest) : readName.result (cellsOfText w) =
      (Value.text (textOf gs)).commentText?.map fun c => (c,cellsOfText rest) := by
  rw [readName,resultBind,expectAt before (by decide),Option.bind_some,resultBind,textAt glyphs]
  cases textOf gs with
  | none => rfl
  | some name =>
    have named : (Value.text (some name)).commentText? = CommentText.ofName? name := rfl
    rw [Option.map_some,Option.bind_some,named]
    cases CommentText.ofName? name <;> rfl

theorem nameOther {ch : Char} {w u : List Char} (before : Blanks w (ch::u)) (solid : Solid ch)
    (other : ch ≠ '"') : readName.result (cellsOfText w) = none := by
  rw [readName,resultBind,expectOther before solid other,Option.bind_none]

theorem objectName (name : Option String) (v : Value) :
    (Value.object [(name,v)]).name? = name.bind fun name => v.null?.map fun _ => name := by
  cases name <;> cases v <;> rfl

theorem objectText (name : Option String) (v : Value) :
    (Value.object [(name,v)]).commentText? =
      (Value.text name).commentText?.bind fun c => v.null?.map fun _ => c := by
  rw [Value.commentText?,Value.commentText?,objectName]
  cases name <;> cases v.null? <;> simp [Value.name?]

theorem objectMore (m m' : Option String × Value) (ms : List (Option String × Value)) :
    (Value.object (m::m'::ms)).commentText? = none := by
  obtain ⟨name,v⟩ := m
  cases name <;> cases v <;> rfl

/- The object form, behind its opening bracket. -/
def readKey : Reader CommentText := do
  let c ← readName
  expect ':'
  readNull
  expect '\x7d'
  return c

theorem keyBefore {name : Option String} {v : Value} {w rest : List Char}
    (member : Spelled (.member name v) w rest) : ∃ a, Blanks a rest ∧
      readKey.result (cellsOfText w) = (Value.text name).commentText?.bind fun c =>
        v.null?.bind fun _ => ((expect '\x7d').result (cellsOfText a)).map fun p => (c,p.2) := by
  cases member with
  | member before name after item =>
    cases item with
    | item before' value after' =>
      refine ⟨_,after',?_⟩
      rw [readKey,resultBind,readNameAt before name]
      cases (Value.text (textOf _)).commentText? with
      | none => rfl
      | some c =>
        rw [Option.map_some,Option.bind_some,Option.bind_some,resultBind,
          expectAt after (by decide),Option.bind_some,resultBind,nullAt before' value]
        cases v.null? with
        | none => rfl
        | some => exact (resultBind _ _ _).trans Option.map_eq_bind.symm

theorem keyAt {ms : List (Option String × Value)} {w rest : List Char}
    (inside : Spelled (.members ms) w ('\x7d' :: rest)) : readKey.result (cellsOfText w) =
      (Value.object ms).commentText?.map fun c => (c,cellsOfText rest) := by
  cases inside with
  | @lastMember name v _ _ member =>
    obtain ⟨a,after,read⟩ := keyBefore member
    rw [read,objectText,expectAt after (by decide)]
    cases (Value.text name).commentText? <;> cases v.null? <;> rfl
  | @nextMember name v ms _ _ _ member others =>
    have none : (Value.object ((name,v)::ms)).commentText? = none := by
      cases others <;> exact objectMore _ _ _
    obtain ⟨a,after,read⟩ := keyBefore member
    rw [read,none,expectOther after (by decide) (by decide)]
    cases (Value.text name).commentText? <;> cases v.null? <;> rfl

theorem commentTextAt {v : Value} {w a rest : List Char} (before : Blanks w a)
    (spelled : Spelled (.value v) a rest) : readCommentText.result (cellsOfText w) =
      v.commentText?.map fun c => (c,cellsOfText rest) := by
  have refused {ch : Char} {u : List Char} (starts : v.Starts ch) (other : ch ≠ '"' ∧ ch ≠ '\x7b')
      (before : Blanks w (ch::u)) : readCommentText.result (cellsOfText w) = none := by
    rw [readCommentText,resultBind,lookAt before starts.solid.1,Option.bind_some,if_neg other.1,
      if_neg other.2,resultRefuse]
  cases spelled with
  | null | yes | no | emptyArray | array => exact refused rfl (by decide) before
  | number number =>
    obtain ⟨ch,u,rfl,starts⟩ := valueStarts (.number number)
    exact refused starts ⟨numberDiffers starts (by decide) (by decide),
      numberDiffers starts (by decide) (by decide)⟩ before
  | text glyphs =>
    rw [readCommentText,resultBind,lookAt before (by decide),Option.bind_some,if_pos rfl,
      readNameAt (.none _) glyphs]
  | emptyObject inside =>
    have solid : Solid '\x7b' := by decide
    rw [readCommentText,resultBind,lookAt before solid,Option.bind_some,
      if_neg (show '\x7b' ≠ '"' by decide),if_pos rfl,resultBind,eatAt solid.1,
      Option.bind_some,resultBind,nameOther inside (by decide) (by decide)]
    rfl
  | object inside =>
    have solid : Solid '\x7b' := by decide
    rw [readCommentText,resultBind,lookAt before solid,Option.bind_some,
      if_neg (show '\x7b' ≠ '"' by decide),if_pos rfl,resultBind,eatAt solid.1]
    exact keyAt inside

/-! The members of the object. -/

/- What one more member makes of what has been given so far. -/
def Given.take? (given : Given) (m : String × Value) : Option Given :=
  if m.1 = "comment_text" then
    if given.commentText.isSome then none
    else m.2.commentText?.map fun c => {given with commentText := some c}
  else if m.1 = "nested_block_comments" then
    if given.nestedBlockComments.isSome then none
    else m.2.flag?.map fun value => {given with nestedBlockComments := some value}
  else some given

theorem skipValueAt {v : Value} {w a rest : List Char} (before : Blanks w a)
    (spelled : Spelled (.value v) a rest) (delimited : Delimited rest) :
    skipValue.result (cellsOfText w) = some ((),cellsOfText rest) :=
  passed spelled [] _ before delimited

theorem memberAt {name : Option String} {v : Value} {w rest : List Char}
    (member : Spelled (.member name v) w rest) (delimited : Delimited rest) (given : Given) :
    ∃ a b, Blanks w ('"' :: a) ∧ Blanks b rest ∧ (readMember given).result (cellsOfText a) =
      name.bind fun name => (given.take? (name,v)).map fun given => (given,cellsOfText b) := by
  cases member with
  | @member gs _ _ _ _ _ _ before glyphs after item =>
    cases item with
    | item before' value after' =>
      refine ⟨_,_,before,after',?_⟩
      rw [readMember,resultBind,textAt glyphs]
      cases textOf gs with
      | none => rfl
      | some name =>
        have delimited' := delimitedBlanks after' delimited
        rw [Option.map_some,Option.bind_some,Option.bind_some,Given.take?]
        simp only [resultIte,resultRefuse,resultBind,expectAt after (show Solid ':' by decide),
          Option.bind_some,commentTextAt before' value,flagAt before' value,
          skipValueAt before' value delimited',resultPure]
        split
        · split
          · rfl
          · cases v.commentText? <;> rfl
        · split
          · split
            · rfl
            · cases v.flag? <;> rfl
          · rfl

theorem readMembersAt {isFirst : Bool} {given : Given} {ch : Char} {w rest : List Char}
    (passed : Blanks w (ch::rest)) (solid : Solid ch) :
    result (readMembers isFirst given) (cellsOfText w) =
      if ch = '\x7d' then some (given,cellsOfText rest)
      else ((readMembers.memberAfter isFirst given ch).result (cellsOfText rest)).bind fun p =>
        result (readMembers false p.1) p.2 := by
  obtain ⟨head,shown,rfl,left⟩ := frontAt passed solid
  unfold result
  rw [readMembers,shown,← left]
  dsimp only
  split
  · rfl
  · cases readMembers.memberAfter isFirst given head.ch head.rest with
    | error e => rfl
    | ok p => exact resultWiden _ _

/- The members of an object are taken in turn, from behind the quote of the first name. -/
theorem membersAt (ms : List (String × Value)) {w rest : List Char}
    (inside : Spelled (.members (ms.map decoded)) w ('\x7d' :: rest)) (given : Given) :
    ∃ a, Blanks w ('"' :: a) ∧ ((readMember given).result (cellsOfText a)).bind (fun p =>
      result (readMembers false p.1) p.2) =
        (ms.foldlM Given.take? given).map fun given => (given,cellsOfText rest) := by
  induction ms generalizing w given with
  | nil => cases inside
  | cons m ms ih =>
    rw [List.map_cons] at inside
    generalize others : ms.map decoded = rest' at inside
    cases inside with
    | lastMember member =>
      obtain ⟨a,b,before,after,read⟩ := memberAt member (delimitedCons (by decide)) given
      refine ⟨a,before,?_⟩
      rw [read,Option.bind_some,List.map_eq_nil_iff.mp others,List.foldlM_cons]
      cases given.take? m with
      | none => rfl
      | some given => exact (readMembersAt after (by decide)).trans (if_pos rfl)
    | nextMember member inside =>
      obtain ⟨a,b,before,after,read⟩ := memberAt member (delimitedCons (by decide)) given
      refine ⟨a,before,?_⟩
      rw [read,Option.bind_some,List.foldlM_cons]
      cases given.take? m with
      | none => rfl
      | some given =>
        obtain ⟨c,before',next⟩ := ih (others ▸ inside) given
        refine (readMembersAt after (by decide)).trans ?_
        rw [if_neg (by decide),readMembers.memberAfter,if_neg Bool.false_ne_true,if_pos rfl,
          resultBind,expectAt before' (by decide),Option.bind_some]
        exact next

theorem cellsOfUtf8 (text : String) :
    text.toUTF8.data.toList.map .byte = cellsOfText text.toList := by
  have encoded := Text.utf8ToList text
  rw [Text.utf8] at encoded
  rw [encoded,List.map_flatMap]
  rfl

theorem readTextResult (text : String) : (readText text).toOption =
    (readDocument.result (cellsOfText text.toList)).map Prod.fst := by
  rw [readText,cellsOfUtf8,run,result]
  cases readDocument (cellsOfText text.toList) <;> rfl

theorem readGivenAt {w a : List Char} (opened : Blanks w ('\x7b' :: a)) :
    readGiven.result (cellsOfText w) = result (readMembers true {}) (cellsOfText a) := by
  have solid : Solid '\x7b' := by decide
  rw [readGiven,resultBind,lookAt opened solid,Option.bind_some,resultBind,eatAt solid.1,
    Option.bind_some]
  exact congrArg (fun r : Reader Given => r.result (cellsOfText a)) (if_pos rfl)

/- An object is read by what each of its members makes of what has been given before. -/
theorem documentAt {text : String} {ms : List (String × Value)} (document : Document text ms) :
    (readText text).toOption = (ms.foldlM Given.take? {}).map Given.settings := by
  -- The members come to what is given, and nothing follows the object.
  have finished {a b : List Char} {taken : Option Given} (after : Blanks b [])
      (opened : Blanks text.toList ('\x7b' :: a)) (members : result (readMembers true {})
        (cellsOfText a) = taken.map fun given => (given,cellsOfText b)) :
      (readText text).toOption = taken.map Given.settings := by
    rw [readTextResult,readDocument,resultBind,readGivenAt opened,members]
    cases taken with
    | none => rfl
    | some given =>
      rw [Option.map_some,Option.bind_some,resultBind,finishAt after]
      rfl
  obtain ⟨before,object,after⟩ := document
  generalize same : ms.map decoded = members at object
  cases object with
  | emptyObject inside =>
    cases List.map_eq_nil_iff.mp same
    exact finished after before ((readMembersAt inside (by decide)).trans (if_pos rfl))
  | object inside =>
    obtain ⟨a,start,read⟩ := membersAt ms (same ▸ inside) {}
    refine finished after before ((readMembersAt start (by decide)).trans ?_)
    rw [if_neg (by decide),readMembers.memberAfter,if_pos rfl,if_pos rfl]
    exact read

/-! The reader as a decoder. -/

def accepted {α : Type} : Option α → Except Rejection α
  | some a => .ok a
  | none => .error .malformed

theorem acceptedOk {α : Type} {taken : Option α} {a : α} :
    accepted taken = .ok a ↔ taken = some a := by
  cases taken <;> simp [accepted]

theorem acceptedOption {α : Type} (taken : Option α) : (accepted taken).toOption = taken := by
  cases taken <;> rfl

def valueOf {β : Type} : Shape β → Value → Except Rejection β
  | .flag, v => accepted v.flag?
  | .variants all name, v =>
    accepted (v.name?.bind fun text => all.find? fun b => name b = text)

def Given.held (given : Given) : ∀ k : Key, Option k.Val
  | .commentText => given.commentText
  | .nestedBlockComments => given.nestedBlockComments

/- What one more member makes of what has been given so far, as an answer. -/
def Given.taken (given : Given) (m : String × Value) : Except Rejection Given :=
  accepted (given.take? m)

def Given.hold (given : Given) : (k : Key) → k.Val → Given
  | .commentText, c => {given with commentText := some c}
  | .nestedBlockComments, value => {given with nestedBlockComments := some value}

def Given.complete (given : Given) (k : Key) : k.Val := (given.held k).getD (declared.absent k)

def reader : Decoder declared where
  value := valueOf
  State := Given
  start := {}
  held := Given.held
  member := Given.taken
  complete := Given.complete
  document := readText

namespace Given
variable (given : Given) (k : Key) (v : Value)

theorem takenAll (ms : List (String × Value)) :
    ms.foldlM Given.taken given = accepted (ms.foldlM Given.take? given) := by
  induction ms generalizing given with
  | nil => rfl
  | cons m ms ih =>
    rw [List.foldlM_cons,List.foldlM_cons,taken]
    cases given.take? m with
    | none => rfl
    | some given => exact ih given

theorem takenUnknown {name : String} (other : ∀ k : Key, k.name ≠ name) :
    given.taken (name,v) = .ok given := by
  have first : name ≠ "comment_text" := (other .commentText).symm
  have second : name ≠ "nested_block_comments" := (other .nestedBlockComments).symm
  simp [taken,take?,first,second,accepted]

theorem takeKnown : given.take? (k.name,v) = if (given.held k).isSome then none
    else (valueOf (declared.shape k) v).toOption.map (given.hold k) := by
  cases k with
  | commentText =>
    change (if given.commentText.isSome then none else v.commentText?.map _) = _
    rw [← acceptedOption v.commentText?]
    rfl
  | nestedBlockComments =>
    change (if given.nestedBlockComments.isSome then none else v.flag?.map _) = _
    rw [← acceptedOption v.flag?]
    rfl

theorem takenRepeated (held : given.held k ≠ none) :
    given.taken (k.name,v) = .error .malformed := by
  rw [taken,takeKnown,if_pos (Option.isSome_iff_ne_none.mpr held)]
  rfl

theorem takenUnreadable {rejection : Rejection}
    (refused : valueOf (declared.shape k) v = .error rejection) :
    given.taken (k.name,v) = .error .malformed := by
  rw [taken,takeKnown,refused]
  split <;> rfl

theorem takenRead {a : k.Val} (none : given.held k = none)
    (read : valueOf (declared.shape k) v = .ok a) :
    given.taken (k.name,v) = .ok (given.hold k a) := by
  rw [taken,takeKnown,none,read]
  rfl

theorem heldHold (a : k.Val) :
    (given.hold k a).held k = some a ∧ ∀ j, j ≠ k → (given.hold k a).held j = given.held j := by
  refine ⟨by cases k <;> rfl,fun j other => ?_⟩
  cases j <;> cases k <;> first | exact absurd rfl other | rfl

end Given

theorem documentTaken {text : String} {ms : List (String × Value)} (document : Document text ms)
    (settings : Settings) : readText text = .ok settings ↔
      ∃ given, ms.foldlM Given.taken {} = .ok given ∧ settings = declared.build given.complete := by
  rw [← toOptionIff,documentAt document,Option.map_eq_some_iff]
  simp only [Given.takenAll,acceptedOk,eq_comm (a := settings)]
  rfl

theorem readerDocumented : reader.Documented where
  flag v value := acceptedOk.trans Value.flagIff
  variant all name v b := by
    simp only [reader,valueOf,acceptedOk,Option.bind_eq_some_iff,Value.nameIff]
  start k := by cases k <;> rfl
  unknown given name v other := given.takenUnknown v other
  repeated given k v held := ⟨_,given.takenRepeated k v held⟩
  unreadable given k v _ refused := ⟨_,given.takenUnreadable k v refused⟩
  given given k v a none read := ⟨_,given.takenRead k v none read,given.heldHold k a⟩
  present _ k _ held := congrArg (Option.getD · (declared.absent k)) held
  absent _ k none := congrArg (Option.getD · (declared.absent k)) none
  object := documentTaken

end Settings
end Munch
