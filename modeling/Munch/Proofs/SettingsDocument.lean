import Munch.Proofs.SettingsReader

/-! Settings that are read from an object, by any decoder that does what is assumed of one.
Main statement: an object is read by its known members, whatever else it has and however it is
written; the reader of documents that the library comes with is such a decoder. -/
namespace Munch.Settings
open Json

variable {decoder : Decoder declared} {text : String} {ms : List (String × Value)}

def readsText (decoder : Decoder declared) : Value → Option CommentText :=
  decoder.reads Key.commentText

def readsFlag (decoder : Decoder declared) : Value → Option Bool :=
  decoder.reads Key.nestedBlockComments

/- The members by which an object is read. -/
def Known (m : String × Value) : Prop := m.1 = "comment_text" ∨ m.1 = "nested_block_comments"

instance : DecidablePred Known := fun _ => inferInstanceAs (Decidable (_ ∨ _))

/- How an object is read: by its known members, whatever else it has, and however it is
written. -/
structure ReadByKnown (decoder : Decoder declared) (text : String) (ms : List (String × Value)) :
    Prop where
  succeeds : (ms.map Prod.fst).count "comment_text" ≤ 1 →
    (ms.map Prod.fst).count "nested_block_comments" ≤ 1 →
    ((∃ settings, fromText decoder.document text = .ok settings) ↔
      (∀ v, ("comment_text",v) ∈ ms → v.Names "with_delimiters" ∨ v.Names "content_only") ∧
      ∀ v, ("nested_block_comments",v) ∈ ms → v = .flag true ∨ v = .flag false)
  commentText : ∀ settings, fromText decoder.document text = .ok settings →
    (∀ v, ("comment_text",v) ∈ ms → v.Names settings.commentText.name) ∧
    ((∀ v, ("comment_text",v) ∉ ms) → settings.commentText = ({} : Settings).commentText)
  nestedBlockComments : ∀ settings, fromText decoder.document text = .ok settings →
    (∀ v, ("nested_block_comments",v) ∈ ms → v = .flag settings.nestedBlockComments) ∧
    ((∀ v, ("nested_block_comments",v) ∉ ms) →
      settings.nestedBlockComments = ({} : Settings).nestedBlockComments)
  repeated : 1 < (ms.map Prod.fst).count "comment_text" ∨
    1 < (ms.map Prod.fst).count "nested_block_comments" →
    ∃ rejection, fromText decoder.document text = .error (Cause.settings rejection)
  refused : (¬ ∃ settings, fromText decoder.document text = .ok settings) →
    ∃ rejection, fromText decoder.document text = .error (Cause.settings rejection)
  unchanged : ∀ other ms', Document other ms' → (ms'.filter Known).Perm (ms.filter Known) →
    (fromText decoder.document other).toOption = (fromText decoder.document text).toOption

theorem fromTextOk {document : String → Except Rejection Settings} {settings : Settings} :
    fromText document text = .ok settings ↔ document text = .ok settings := by
  cases read : document text <;> simp [fromText,ofAnswer,read]

theorem fromTextRefused {document : String → Except Rejection Settings}
    (refused : ¬ ∃ settings, fromText document text = .ok settings) :
    ∃ rejection, fromText document text = .error (Cause.settings rejection) := by
  cases read : document text with
  | ok settings => exact absurd ⟨settings,fromTextOk.mpr read⟩ refused
  | error rejection => exact ⟨rejection,by rw [fromText,read,ofAnswer]⟩

section
variable (documented : decoder.Documented)
include documented

theorem readsTextIff {v : Value} {c : CommentText} :
    readsText decoder v = some c ↔ v.Names c.name := by
  have read : readsText decoder v = some c ↔
      decoder.value (.variants CommentText.all CommentText.name) v = .ok c := toOptionIff
  rw [read,documented.variant]
  constructor
  · rintro ⟨name,names,found⟩
    rwa [CommentText.ofNameIff.mp found] at names
  · exact fun names => ⟨c.name,names,CommentText.ofNameIff.mpr rfl⟩

theorem readsFlagIff {v : Value} {value : Bool} :
    readsFlag decoder v = some value ↔ v = .flag value :=
  toOptionIff.trans (documented.flag v value)

/- An object is read by what is given for the known keys. -/
theorem okIff (document : Document text ms) {settings : Settings} :
    fromText decoder.document text = .ok settings ↔ ∃ c n,
      given? (readsText decoder) "comment_text" ms = some c ∧
      given? (readsFlag decoder) "nested_block_comments" ms = some n ∧
      settings = ⟨c.getD .withDelimiters,n.getD false⟩ := by
  rw [fromTextOk,documented.objectGiven document]
  constructor
  · rintro ⟨given,givens,rfl⟩
    exact ⟨given .commentText,given .nestedBlockComments,givens .commentText,
      givens .nestedBlockComments,rfl⟩
  · rintro ⟨c,n,text,nested,rfl⟩
    refine ⟨fun | .commentText => c | .nestedBlockComments => n,fun k => ?_,rfl⟩
    cases k with
    | commentText => exact text
    | nestedBlockComments => exact nested

theorem objectRead (document : Document text ms) : ReadByKnown decoder text ms where
  succeeds text nested := by
    have texts := givenReadable (readsText decoder) text
    have flags := givenReadable (readsFlag decoder) nested
    simp only [readsTextIff documented,readsFlagIff documented] at texts flags
    have names (v : Value) : (∃ c : CommentText, v.Names c.name) ↔
        v.Names "with_delimiters" ∨ v.Names "content_only" := by
      constructor
      · rintro ⟨_ | _,names⟩
        · exact .inl names
        · exact .inr names
      · rintro (names | names)
        · exact ⟨.withDelimiters,names⟩
        · exact ⟨.contentOnly,names⟩
    have values (v : Value) : (∃ value, v = .flag value) ↔ v = .flag true ∨ v = .flag false := by
      simp [Bool.exists_bool,or_comm]
    simp only [names] at texts
    simp only [values] at flags
    rw [← texts,← flags]
    constructor
    · rintro ⟨settings,ok⟩
      obtain ⟨c,n,text,nested,_⟩ := (okIff documented document).mp ok
      exact ⟨⟨c,text⟩,n,nested⟩
    · rintro ⟨⟨c,text⟩,n,nested⟩
      exact ⟨_,(okIff documented document).mpr ⟨c,n,text,nested,rfl⟩⟩
  commentText settings ok := by
    obtain ⟨c,n,text,_,rfl⟩ := (okIff documented document).mp ok
    obtain ⟨present,absent⟩ := givenReads text
    refine ⟨fun v member => ?_,fun none => by rw [absent none]; rfl⟩
    obtain ⟨c,rfl,reads⟩ := present v member
    exact (readsTextIff documented).mp reads
  nestedBlockComments settings ok := by
    obtain ⟨c,n,_,nested,rfl⟩ := (okIff documented document).mp ok
    obtain ⟨present,absent⟩ := givenReads nested
    refine ⟨fun v member => ?_,fun none => by rw [absent none]; rfl⟩
    obtain ⟨value,rfl,reads⟩ := present v member
    exact (readsFlagIff documented).mp reads
  repeated twice := by
    refine fromTextRefused fun ok => ?_
    obtain ⟨settings,ok⟩ := ok
    obtain ⟨c,n,text,nested,_⟩ := (okIff documented document).mp ok
    rcases twice with twice | twice
    · cases (givenRepeated twice).symm.trans text
    · cases (givenRepeated twice).symm.trans nested
  refused := fromTextRefused
  unchanged other ms' document' perm := by
    have same (key : String) (known : ∀ m : String × Value, m.1 = key → Known m) :
        (ms'.filter (·.1 = key)).Perm (ms.filter (·.1 = key)) := by
      have narrowed (l : List (String × Value)) :
          (l.filter Known).filter (·.1 = key) = l.filter (·.1 = key) := by
        rw [List.filter_filter]
        exact List.filter_congr fun m _ => by simpa using known m
      have kept := perm.filter (·.1 = key)
      rwa [narrowed,narrowed] at kept
    refine Option.ext fun settings => ?_
    rw [toOptionIff,toOptionIff,okIff documented document,okIff documented document',
      givenPerm (same "comment_text" fun _ => .inl),
      givenPerm (same "nested_block_comments" fun _ => .inr)]

end

theorem plainGlyphs (text : List Char)
    (plain : text.Forall fun ch => ch ≠ '"' ∧ ch ≠ '\\' ∧ ' ' ≤ ch) {gs : List Glyph}
    {w rest : List Char} (others : Glyphs gs w rest) : Glyphs (text.map .char ++ gs) (text ++ w) rest := by
  induction text with
  | nil => exact others
  | cons ch text ih =>
    obtain ⟨⟨quote,backslash,printable⟩,plain⟩ := (List.forall_cons _ _ _).mp plain
    exact .plain quote backslash printable (ih plain)

/- An object with an escape in a name, a name inside that does not decode, and blanks. -/
def escaped : String :=
  "\x7b" ++ ("\"x\":[-0.5e+3,\x7b\"\\ud800\":null\x7d]," ++
    ("\"comment\\u005Ftext\" : \x7b\"content_only\":null\x7d," ++
      "\"nested_block_comments\":true\x7d"))

def escapedMembers : List (String × Value) :=
  [("x",.array [.number,.object [(none,.null)]]),
    ("comment_text",.object [(some "content_only",.null)]),("nested_block_comments",.flag true)]

theorem escapedDocument : Document escaped escapedMembers := by
  have hexD : HexDigit 'd' 13 := ⟨by decide,.inl rfl⟩
  have hexF : HexDigit 'F' 15 := ⟨by decide,.inr rfl⟩
  have hex8 : HexDigit '8' 8 := ⟨by decide,.inl rfl⟩
  have hex5 : HexDigit '5' 5 := ⟨by decide,.inl rfl⟩
  have hex0 : HexDigit '0' 0 := ⟨by decide,.inl rfl⟩
  have plain (name : String)
      (printable : name.toList.Forall fun ch => ch ≠ '"' ∧ ch ≠ '\\' ∧ ' ' ≤ ch)
      (rest : List Char) : Glyphs (name.toList.map .char ++ []) (name.toList ++ '"' :: rest) rest :=
    plainGlyphs _ printable (.close rest)
  have nested (rest : List Char) : Spelled
      (.value (.object [(textOf [.unit (((13*16+8)*16+0)*16+0)],.null)]))
      ("\x7b\"\\ud800\":null\x7d".toList ++ rest) rest :=
    .object (.lastMember (.member (.none _) (.unit hexD hex8 hex0 hex0 (.close _)) (.none _)
      (.item (.none _) (.null _) (.none _))))
  have number (rest : List Char) : Spelled (.value .number) ("-0.5e+3".toList ++ rest) rest :=
    .number (.negative (.parts (.zero _) (.some (by decide) (.none _))
      (.some (.inl rfl) (.plus _) (by decide) (.none _))))
  have flag (rest : List Char) : Spelled
      (.members [(textOf ("nested_block_comments".toList.map .char ++ []),.flag true)])
      ("\"nested_block_comments\":true\x7d".toList ++ rest) ('\x7d' :: rest) :=
    .lastMember (.member (.none _) (plain "nested_block_comments" (by decide) _) (.none _)
      (.item (.none _) (.yes _) (.none _)))
  have key (rest : List Char) : Spelled
      (.value (.object [(textOf ("content_only".toList.map .char ++ []),.null)]))
      ("\x7b\"content_only\":null\x7d".toList ++ rest) rest :=
    .object (.lastMember (.member (.none _) (plain "content_only" (by decide) _) (.none _)
      (.item (.none _) (.null _) (.none _))))
  have commentText : Spelled
      (.members [(textOf ("comment".toList.map .char ++ .unit (((0*16+0)*16+5)*16+15) ::
          ("text".toList.map .char ++ [])),
        .object [(textOf ("content_only".toList.map .char ++ []),.null)]),
        (textOf ("nested_block_comments".toList.map .char ++ []),.flag true)])
      ("\"comment\\u005Ftext\" : \x7b\"content_only\":null\x7d,".toList ++
        "\"nested_block_comments\":true\x7d".toList) ['\x7d'] :=
    .nextMember (.member (.none _)
      (plainGlyphs "comment".toList (by decide)
        (.unit hex0 hex0 hex5 hexF (plain "text" (by decide) _)))
      (.more (by decide) (.none _)) (.item (.more (by decide) (.none _)) (key _) (.none _)))
      (flag _)
  have array (rest : List Char) : Spelled (.member (textOf ("x".toList.map .char ++ []))
      (.array [.number,.object [(textOf [.unit (((13*16+8)*16+0)*16+0)],.null)]]))
      ("\"x\":[-0.5e+3,\x7b\"\\ud800\":null\x7d],".toList ++ rest) (',' :: rest) :=
    .member (.none _) (plain "x" (by decide) _) (.none _)
      (.item (.none _) (.array (.nextItem (.item (.none _) (number _) (.none _))
        (.lastItem (.item (.none _) (nested _) (.none _))))) (.none _))
  have whole := Spelled.object (.nextMember (array _) commentText)
  refine .object (.none _) ?_ (.none _)
  rw [escaped,String.toList_append,String.toList_append,String.toList_append]
  exact whole

theorem objectReadSample : reader.Documented ∧ Document escaped escapedMembers ∧
    ReadByKnown reader escaped escapedMembers ∧ ofJson escaped = .ok ⟨.contentOnly,true⟩ :=
  ⟨readerDocumented,escapedDocument,objectRead readerDocumented escapedDocument,
    (okIff readerDocumented escapedDocument).mpr
      ⟨some .contentOnly,some true,by decide,by decide,rfl⟩⟩

end Munch.Settings
