import Munch.Json.Text
import Munch.Proofs.JsonReading

/-! Strings in JSON, behind their opening quote. The bytes of a character that stands for
itself are plain, so that neither of the two readers stops inside it. Main statements: a string
is passed over whether or not it decodes; a string is read as the text that its glyphs decode
to, and refused if they decode to none. -/
namespace Munch.Json.Reader

theorem hexDigitOf {ch : Char} {n : Nat} (digit : HexDigit ch n) :
    Ascii ch ∧ hexDigit? ch = some n := by
  have digits : ∀ n < 16, (Ascii (Nat.digitChar n) ∧ hexDigit? (Nat.digitChar n) = some n) ∧
      Ascii (Nat.digitChar n).toUpper ∧ hexDigit? (Nat.digitChar n).toUpper = some n := by decide
  obtain ⟨small,rfl | rfl⟩ := digit
  · exact (digits n small).1
  · exact (digits n small).2

theorem hex4At {a b c d : Char} {i j k l : Nat} (first : HexDigit a i) (second : HexDigit b j)
    (third : HexDigit c k) (fourth : HexDigit d l) (w : List Char) :
    hex4.result (cellsOfText (a::b::c::d::w)) =
      some (((i*16+j)*16+k)*16+l,cellsOfText w) := by
  obtain ⟨lowA,a⟩ := hexDigitOf first
  obtain ⟨lowB,b⟩ := hexDigitOf second
  obtain ⟨lowC,c⟩ := hexDigitOf third
  obtain ⟨lowD,d⟩ := hexDigitOf fourth
  simp only [hex4,resultBind,charAt lowA,charAt lowB,charAt lowC,charAt lowD,Option.bind_some,
    a,b,c,d,resultPure]

theorem escapeOf {letter ch : Char} (escape : (letter,ch) ∈ escapes) :
    Ascii letter ∧ letter ≠ 'u' ∧ shortEscape? letter = some ch := by
  have all : escapes.Forall fun p => Ascii p.1 ∧ p.1 ≠ 'u' ∧ shortEscape? p.1 = some p.2 := by
    decide
  exact List.forall_iff_forall_mem.mp all _ escape

theorem escapeShort {letter ch : Char} (short : (letter,ch) ∈ escapes) (w : List Char) :
    escape.result (cellsOfText (letter::w)) = some (ch,cellsOfText w) := by
  obtain ⟨low,other,escape⟩ := escapeOf short
  simp only [Reader.escape,resultBind,charAt low,Option.bind_some,if_neg other,escape,resultPure]

theorem skipEscapeShort {letter ch : Char} (short : (letter,ch) ∈ escapes) (w : List Char) :
    skipEscape.result (cellsOfText (letter::w)) = some ((),cellsOfText w) := by
  obtain ⟨low,other,escape⟩ := escapeOf short
  simp only [skipEscape,resultBind,charAt low,Option.bind_some,if_neg other,escape,resultPure]

theorem skipTextCons (b : UInt8) (cells : List Cell) :
    result skipText (.byte b::cells) =
      if b = 0x22 then some ((),cells)
      else if b = 0x5C then (skipEscape.result cells).bind fun p => result skipText p.2
      else if b < 0x20 then none
      else result skipText cells := by
  unfold result
  rw [skipText]
  split
  · rfl
  split
  · cases skipEscape cells with
    | error e => rfl
    | ok p => exact resultWiden _ _
  split
  · rfl
  · exact resultWiden _ _

theorem textBytesCons (taken : List UInt8) (b : UInt8) (cells : List Cell) :
    result (textBytes taken) (.byte b::cells) =
      if b = 0x22 then some (taken.reverse,cells)
      else if b = 0x5C then (escape.result cells).bind fun p =>
        result (textBytes ((String.utf8EncodeChar p.1).reverse ++ taken)) p.2
      else if b < 0x20 then none
      else result (textBytes (b::taken)) cells := by
  unfold result
  rw [textBytes]
  split
  · rfl
  split
  · cases escape cells with
    | error e => rfl
    | ok p => exact resultWiden _ _
  split
  · rfl
  · exact resultWiden _ _

/- A byte that stands for itself, or for a part of a character. -/
def Plain (b : UInt8) : Prop := b ≠ 0x22 ∧ b ≠ 0x5C ∧ ¬ b < 0x20

theorem plainHigh {b : UInt8} (high : 0x80 ≤ b.toNat) : Plain b := by
  refine ⟨?_,?_,?_⟩
  · rintro rfl; exact absurd high (by decide)
  · rintro rfl; exact absurd high (by decide)
  · intro low
    have low : b.toNat < 0x20 := low
    omega

theorem plainBytes {ch : Char} (quote : ch ≠ '"') (backslash : ch ≠ '\\') (printable : ' ' ≤ ch) :
    ∀ b ∈ String.utf8EncodeChar ch, Plain b := by
  obtain ⟨lead,tail,encoded,wide,continues,assembles⟩ := Utf8.encodeSpells ch
  rw [encoded]
  -- One byte is the code of the character; of more bytes none is below 0x80.
  cases tail with
  | nil =>
    have same : ch.toNat = lead.toNat := (Utf8.assembled assembles).2
    have low : ' '.toNat ≤ ch.toNat := printable
    rw [List.forall_mem_singleton]
    refine ⟨?_,?_,fun small => ?_⟩
    · rintro rfl; exact quote (Char.toNat_inj.mp same)
    · rintro rfl; exact backslash (Char.toNat_inj.mp same)
    · have small : lead.toNat < 0x20 := small
      have space : ' '.toNat = 0x20 := rfl
      omega
  | cons second tail =>
    have high : 0x80 ≤ lead.toNat := by
      by_contra low
      rw [Utf8.width,if_pos (by omega)] at wide
      simp at wide
    refine List.forall_mem_cons.mpr ⟨plainHigh high,fun b member => ?_⟩
    have continuation := continues b member
    simp only [Utf8.isContinuation,Bool.and_eq_true,decide_eq_true_eq] at continuation
    exact plainHigh continuation.1

theorem skipTextPlain {bs : List UInt8} (plain : ∀ b ∈ bs, Plain b) (cells : List Cell) :
    result skipText (bs.map .byte ++ cells) = result skipText cells := by
  induction bs with
  | nil => rfl
  | cons b bs ih =>
    obtain ⟨⟨quote,backslash,printable⟩,others⟩ := List.forall_mem_cons.mp plain
    rw [List.map_cons,List.cons_append,skipTextCons,if_neg quote,if_neg backslash,
      if_neg printable,ih others]

theorem textBytesPlain {bs : List UInt8} (plain : ∀ b ∈ bs, Plain b) (taken : List UInt8)
    (cells : List Cell) : result (textBytes taken) (bs.map .byte ++ cells) =
      result (textBytes (bs.reverse ++ taken)) cells := by
  induction bs generalizing taken with
  | nil => rfl
  | cons b bs ih =>
    obtain ⟨⟨quote,backslash,printable⟩,others⟩ := List.forall_mem_cons.mp plain
    rw [List.map_cons,List.cons_append,textBytesCons,if_neg quote,if_neg backslash,
      if_neg printable,ih others]
    simp

theorem cellsCons (ch : Char) (w : List Char) :
    cellsOfText (ch::w) = (String.utf8EncodeChar ch).map .byte ++ cellsOfText w :=
  List.flatMap_cons

theorem skipTextQuote (w : List Char) :
    result skipText (cellsOfText ('"' :: w)) = some ((),cellsOfText w) := by
  rw [cellsAscii (by decide),skipTextCons]
  rfl

theorem skipTextEscape (w : List Char) : result skipText (cellsOfText ('\\' :: w)) =
    (skipEscape.result (cellsOfText w)).bind fun p => result skipText p.2 := by
  rw [cellsAscii (by decide),skipTextCons]
  rfl

theorem skipTextAt {gs : List Glyph} {w rest : List Char} (glyphs : Glyphs gs w rest) :
    result skipText (cellsOfText w) = some ((),cellsOfText rest) := by
  induction glyphs with
  | close rest => exact skipTextQuote rest
  | plain quote backslash printable others ih =>
    rw [cellsCons,skipTextPlain (plainBytes quote backslash printable),ih]
  | short escape others ih =>
    rw [skipTextEscape,skipEscapeShort escape,Option.bind_some,ih]
  | unit first second third fourth others ih =>
    rw [skipTextEscape,skipEscape,resultBind,charAt (by decide),Option.bind_some,if_pos rfl,
      resultBind,hex4At first second third fourth,Option.bind_some,resultPure,Option.bind_some,ih]

theorem textBytesQuote (taken : List UInt8) (w : List Char) :
    result (textBytes taken) (cellsOfText ('"' :: w)) = some (taken.reverse,cellsOfText w) := by
  rw [cellsAscii (by decide),textBytesCons]
  rfl

theorem textBytesEscape (taken : List UInt8) (w : List Char) :
    result (textBytes taken) (cellsOfText ('\\' :: w)) =
      (escape.result (cellsOfText w)).bind fun p =>
        result (textBytes ((String.utf8EncodeChar p.1).reverse ++ taken)) p.2 := by
  rw [cellsAscii (by decide),textBytesCons]
  rfl

/- The unit that has to follow the first of a surrogate pair. -/
def lowUnit : Reader Nat := do
  expectHere '\\'
  expectHere 'u'
  hex4

theorem unicodeEscapeOf {n : Nat} {cells left : List Cell}
    (read : hex4.result cells = some (n,left)) : unicodeEscape.result cells =
      if IsLow n then none
      else if IsHigh n then (lowUnit.result left).bind fun p =>
        if IsLow p.1 then some (paired n p.1,p.2) else none
      else some (Char.ofNat n,left) := by
  simp only [unicodeEscape,lowUnit,paired,resultBind,read,Option.bind_some,resultIte,resultRefuse,
    resultPure,Option.bind_assoc]

theorem expectHereAt {ch : Char} (low : Ascii ch) (w : List Char) :
    (expectHere ch).result (cellsOfText (ch::w)) = some ((),cellsOfText w) := by
  rw [expectHere,resultBind,charAt low,Option.bind_some,if_pos rfl,resultPure]

theorem expectHereOther {ch other : Char} (low : Ascii ch) (differs : ch ≠ other) (w : List Char) :
    (expectHere other).result (cellsOfText (ch::w)) = none := by
  rw [expectHere,resultBind,charAt low,Option.bind_some,if_neg differs,resultRefuse]

theorem expectBackslash {b : UInt8} (plain : Plain b) (cells : List Cell) :
    (expectHere '\\').result (.byte b::cells) = none := by
  have differs : Char.ofNat b.toNat ≠ '\\' := by
    intro same
    apply plain.2.1
    have valid : b.toNat.isValidChar := .inl (Nat.lt_trans b.toNat_lt (by decide))
    have code := congrArg Char.toNat same
    rw [Char.ofNat,dif_pos valid] at code
    exact UInt8.toNat_inj.mp code
  have read : char.result (.byte b::cells) = some (Char.ofNat b.toNat,cells) := by
    rw [char,resultBind]
    rfl
  rw [expectHere,resultBind,read,Option.bind_some,if_neg differs,resultRefuse]

theorem lowUnitAt {gs : List Glyph} {w rest : List Char} (glyphs : Glyphs gs w rest) :
    match gs with
    | .unit n::gs => ∃ v, Glyphs gs v rest ∧ lowUnit.result (cellsOfText w) = some (n,cellsOfText v)
    | _ => lowUnit.result (cellsOfText w) = none := by
  cases glyphs with
  | close =>
    dsimp only
    rw [lowUnit,resultBind,expectHereOther (by decide) (by decide),Option.bind_none]
  | @plain ch _ _ _ quote backslash printable others =>
    obtain ⟨lead,tail,encoded,_⟩ := Utf8.encodeSpells ch
    have plain := plainBytes quote backslash printable lead (by simp [encoded])
    dsimp only
    rw [lowUnit,resultBind,cellsCons,encoded,List.map_cons,List.cons_append,
      expectBackslash plain,Option.bind_none]
  | short escape others =>
    obtain ⟨low,other,_⟩ := escapeOf escape
    dsimp only
    rw [lowUnit,resultBind,expectHereAt (by decide),Option.bind_some,resultBind,
      expectHereOther low other,Option.bind_none]
  | unit first second third fourth others =>
    refine ⟨_,others,?_⟩
    rw [lowUnit,resultBind,expectHereAt (by decide),Option.bind_some,resultBind,
      expectHereAt (by decide),Option.bind_some,hex4At first second third fourth]

theorem textBytesUnit {a b c d : Char} {i j k l : Nat} (first : HexDigit a i)
    (second : HexDigit b j) (third : HexDigit c k) (fourth : HexDigit d l) (taken : List UInt8)
    (w : List Char) : result (textBytes taken) (cellsOfText ('\\' :: 'u' :: a::b::c::d::w)) =
      (let n := ((i*16+j)*16+k)*16+l
        if IsLow n then none
        else if IsHigh n then (lowUnit.result (cellsOfText w)).bind fun p =>
          if IsLow p.1 then some (paired n p.1,p.2) else none
        else some (Char.ofNat n,cellsOfText w)).bind fun p =>
          result (textBytes ((String.utf8EncodeChar p.1).reverse ++ taken)) p.2 := by
  rw [textBytesEscape,escape,resultBind,charAt (by decide),Option.bind_some,if_pos rfl,
    unicodeEscapeOf (hex4At first second third fourth w)]

theorem textBytesAt {gs : List Glyph} {w rest : List Char} (glyphs : Glyphs gs w rest)
    (taken : List UInt8) : result (textBytes taken) (cellsOfText w) =
      (decode gs).map fun text =>
        (taken.reverse ++ text.flatMap String.utf8EncodeChar,cellsOfText rest) := by
  -- The cases are those of decoding: a unit takes the next glyph with it, or refuses it.
  fun_induction decode gs generalizing w taken with
  | case1 =>
    cases glyphs
    rw [textBytesQuote]
    simp
  | case2 ch gs ih =>
    cases glyphs with
    | plain quote backslash printable others =>
      rw [cellsCons,textBytesPlain (plainBytes quote backslash printable),ih others]
      simp [Function.comp_def]
    | short escape others =>
      rw [textBytesEscape,escapeShort escape,Option.bind_some,ih others]
      simp [Function.comp_def]
  | case3 n gs low =>
    cases glyphs with
    | unit first second third fourth others =>
      rw [textBytesUnit first second third fourth,if_pos low]
      rfl
  | case4 n notLow high low gs isLow ih =>
    cases glyphs with
    | unit first second third fourth others =>
      obtain ⟨v,others,read⟩ := lowUnitAt others
      rw [textBytesUnit first second third fourth,if_neg notLow,if_pos high,read,
        Option.bind_some,if_pos isLow,Option.bind_some,ih others]
      simp [Function.comp_def]
  | case5 n notLow high low gs notLow' =>
    cases glyphs with
    | unit first second third fourth others =>
      obtain ⟨v,others,read⟩ := lowUnitAt others
      rw [textBytesUnit first second third fourth,if_neg notLow,if_pos high,read,
        Option.bind_some,if_neg notLow']
      rfl
  | case6 n gs notLow high other =>
    cases glyphs with
    | @unit _ _ _ _ _ _ _ _ _ v _ first second third fourth others =>
      have refused : lowUnit.result (cellsOfText v) = none := by
        have next := lowUnitAt others
        split at next
        · exact (other _ _ rfl).elim
        · exact next
      rw [textBytesUnit first second third fourth,if_neg notLow,if_pos high,refused]
      rfl
  | case7 n gs notLow notHigh ih =>
    cases glyphs with
    | unit first second third fourth others =>
      rw [textBytesUnit first second third fourth,if_neg notLow,if_neg notHigh,
        Option.bind_some,ih others]
      simp [Function.comp_def]

theorem fromUtf8 (chars : List Char) :
    String.fromUTF8? (chars.flatMap String.utf8EncodeChar).toByteArray =
      some (String.ofList chars) :=
  dif_pos (c := chars.utf8Encode.IsValidUTF8) ByteArray.isValidUTF8_utf8Encode

theorem textAt {gs : List Glyph} {w rest : List Char} (glyphs : Glyphs gs w rest) :
    text.result (cellsOfText w) = (textOf gs).map fun name => (name,cellsOfText rest) := by
  have bytes := textBytesAt glyphs []
  refine (resultBind (textBytes []) _ _).trans ?_
  rw [bytes,textOf]
  cases decode gs with
  | none => rfl
  | some chars =>
    simp only [Option.map_some,Option.bind_some,List.reverse_nil,List.nil_append,fromUtf8,
      resultPure]

end Munch.Json.Reader
