import Munch.Proofs.Decoding

/-! A text whose bytes are interrupted by failures. A failure between two characters does no
harm. One within a character takes away what was read of it, so the bytes that remain are
failures of their own, which nothing gave. Main statement: the characters of a text are read
exactly when no failure parts one of them, and then every failure is reported once, in order
and unchanged. -/
namespace Munch

/- The failures among what a feed gives. -/
def interruptions (answers : List ByteAnswer) : List ReadError :=
  answers.filterMap fun
    | .ok _ => none
    | .error e => some e

@[simp] theorem interruptionsError (e : ReadError) (answers : List ByteAnswer) :
    interruptions (.error e::answers) = e::interruptions answers := rfl

@[simp] theorem interruptionsOk (b : UInt8) (answers : List ByteAnswer) :
    interruptions (.ok b::answers) = interruptions answers := rfl

@[simp] theorem interruptionsAppend (answers others : List ByteAnswer) :
    interruptions (answers ++ others) = interruptions answers ++ interruptions others :=
  List.filterMap_append

@[simp] theorem interruptionsMapOk (bytes : List UInt8) : interruptions (bytes.map .ok) = [] := by
  induction bytes with
  | nil => rfl
  | cons b rest ih => exact ih

/- A stretch of what a feed gives: a failure between characters, the bytes of a character in
a row, or those of a character that a failure parts. -/
inductive Piece where
  | failure (e : ReadError)
  | whole (ch : Char)
  | parted (ch : Char) (lead : UInt8) (early : List UInt8) (e : ReadError)
      (later : List ByteAnswer) (goes : received later ≠ [])
      (bytes : String.utf8EncodeChar ch = lead::(early ++ received later))

namespace Piece

def answers : Piece → List ByteAnswer
  | failure e => [.error e]
  | whole ch => (String.utf8EncodeChar ch).map .ok
  | parted _ lead early e later _ _ => .ok lead::(early.map .ok ++ .error e::later)

def character? : Piece → Option Char
  | failure _ => none
  | whole ch => some ch
  | parted ch _ _ _ _ _ _ => some ch

def isParted : Piece → Bool
  | parted _ _ _ _ _ _ _ => true
  | _ => false

/- What is read after a failure has parted a character. -/
def stranded : ByteAnswer → Except ReadError Char
  | .ok b => .error (Utf8.badLead b)
  | .error e => .error e

def delivery : Piece → Delivery
  | failure e => [.error e]
  | whole ch => [.ok ch]
  | parted _ _ _ e later _ _ => .error e::later.map stranded

def delivered (pieces : List Piece) : Delivery := pieces.flatMap delivery

end Piece

namespace Utf8Source
variable {f : ByteFeed} {rest : List ByteAnswer} {d : Delivery}

theorem strandedDelivered {later : List ByteAnswer}
    (continues : ∀ b ∈ received later, Utf8.isContinuation b = true)
    (gives : f.Gives (later ++ rest)) (further : ∀ f', f'.Gives rest → Delivers (mk f') d) :
    Delivers (mk f) (later.map Piece.stranded ++ d) := by
  induction later generalizing f with
  | nil => exact further f gives
  | cons answer later ih =>
    cases answer with
    | error e =>
      obtain ⟨f',read,gives'⟩ := Utf8.readFailure gives
      exact .failure (reads read) (ih continues gives')
    | ok b =>
      obtain ⟨here,others⟩ := List.forall_mem_cons.mp continues
      obtain ⟨f',read,gives'⟩ := Utf8.readStranded here gives
      exact .failure (reads read) (ih others gives')

theorem pieceDelivered (piece : Piece) (gives : f.Gives (piece.answers ++ rest))
    (further : ∀ f', f'.Gives rest → Delivers (mk f') d) :
    Delivers (mk f) (piece.delivery ++ d) := by
  cases piece with
  | failure e =>
    obtain ⟨f',read,gives'⟩ := Utf8.readFailure gives
    exact .failure (reads read) (further f' gives')
  | whole ch =>
    obtain ⟨f',read,gives'⟩ := Utf8.readWhole gives
    exact .character (reads read) (further f' gives')
  | parted ch lead early e later goes bytes =>
    rw [Piece.answers,List.cons_append,List.append_assoc] at gives
    obtain ⟨f',read,gives'⟩ := Utf8.readParted bytes goes gives
    have continues := (List.forall_mem_append.mp (Utf8.spelt bytes).continues).2
    exact .failure (reads read) (strandedDelivered continues gives' further)

theorem piecesDelivered (pieces : List Piece) (gives : f.Gives (pieces.flatMap Piece.answers)) :
    Delivers (mk f) (Piece.delivered pieces) := by
  induction pieces generalizing f with
  | nil => exact .finished (reads (Utf8.readOver gives))
  | cons piece pieces ih =>
    rw [List.flatMap_cons] at gives
    exact pieceDelivered piece gives fun f' => ih

end Utf8Source

/- Bytes come in a row, or a failure parts them. -/
theorem receivedSplit {answers : List ByteAnswer} {bytes rest : List UInt8}
    (split : received answers = bytes ++ rest) :
    (∃ others, answers = bytes.map .ok ++ others ∧ received others = rest) ∨
      ∃ early e later others, answers = early.map .ok ++ .error e::(later ++ others) ∧
        bytes = early ++ received later ∧ received later ≠ [] ∧ received others = rest := by
  induction bytes generalizing answers with
  | nil => exact .inl ⟨answers,rfl,split⟩
  | cons b bytes ih =>
    cases answers with
    | nil => cases split
    | cons answer answers =>
      cases answer with
      | error e =>
        have further : received answers = b::bytes ++ rest := split
        obtain ⟨later,others,rfl,taken,left⟩ := List.filterMap_eq_append_iff.mp further
        have taken' : received later = b::bytes := taken
        have goes : received later ≠ [] := taken' ▸ List.cons_ne_nil b bytes
        exact .inr ⟨[],e,later,others,rfl,taken.symm,goes,left⟩
      | ok b' =>
        obtain ⟨rfl,further⟩ := List.cons.inj split
        rcases ih further with ⟨others,rfl,left⟩ | ⟨early,e,later,others,rfl,rfl,goes,left⟩
        · exact .inl ⟨others,rfl,left⟩
        · exact .inr ⟨b'::early,e,later,others,rfl,rfl,goes,left⟩

theorem Piece.answersSome (piece : Piece) : 0 < piece.answers.length := by
  cases piece with
  | failure | parted => exact Nat.succ_pos _
  | whole ch =>
    obtain ⟨lead,tail,bytes,_⟩ := Utf8.encodeSpells ch
    simp [answers,bytes]

/- Whatever comes first of what a feed gives of a text is a piece. -/
theorem pieceOf {answer : ByteAnswer} {answers : List ByteAnswer} {text : List Char}
    (carries : received (answer::answers) = text.flatMap String.utf8EncodeChar) :
    ∃ (piece : Piece) (others : List ByteAnswer) (rest : List Char),
      answer::answers = piece.answers ++ others ∧ text = piece.character?.toList ++ rest ∧
        received others = rest.flatMap String.utf8EncodeChar := by
  cases answer with
  | error e => exact ⟨.failure e,answers,text,rfl,rfl,carries⟩
  | ok b =>
    cases text with
    | nil => cases carries
    | cons ch rest =>
      obtain ⟨lead,tail,bytes,_⟩ := Utf8.encodeSpells ch
      rw [List.flatMap_cons,bytes] at carries
      obtain ⟨rfl,further⟩ := List.cons.inj carries
      rcases receivedSplit further with
        ⟨others,rfl,left⟩ | ⟨early,e,later,others,rfl,rfl,goes,left⟩
      · exact ⟨.whole ch,others,rest,by simp [Piece.answers,bytes],rfl,left⟩
      · exact ⟨.parted ch b early e later goes bytes,others,rest,by simp [Piece.answers],rfl,left⟩

/- What a feed gives of a text falls into pieces. -/
theorem piecesOf {answers : List ByteAnswer} {text : List Char}
    (carries : received answers = text.flatMap String.utf8EncodeChar) :
    ∃ pieces : List Piece, pieces.flatMap Piece.answers = answers ∧
      pieces.filterMap Piece.character? = text := by
  -- A piece takes an answer at least.
  generalize size : answers.length = count
  induction count using Nat.strongRecOn generalizing answers text with
  | ind count ih =>
    cases answers with
    | nil =>
      cases text with
      | nil => exact ⟨[],rfl,rfl⟩
      | cons ch rest =>
        obtain ⟨lead,tail,bytes,_⟩ := Utf8.encodeSpells ch
        rw [List.flatMap_cons,bytes] at carries
        cases carries
    | cons answer answers =>
      obtain ⟨piece,others,rest,given,rfl,left⟩ := pieceOf carries
      have fewer : others.length < count := by
        have positive := piece.answersSome
        rw [← size,given,List.length_append]
        omega
      obtain ⟨pieces,rfl,rfl⟩ := ih others.length fewer left rfl
      refine ⟨piece::pieces,given.symm,?_⟩
      cases found : piece.character? <;> simp [found]

namespace Piece

@[simp] theorem strandedCharacters (later : List ByteAnswer) :
    Delivery.characters (later.map stranded) = [] := by
  induction later with
  | nil => rfl
  | cons answer later ih => cases answer <;> exact ih

theorem strandedFailures (later : List ByteAnswer) :
    (Delivery.failures (later.map stranded)).length =
      (interruptions later).length+(received later).length := by
  induction later with
  | nil => rfl
  | cons answer later ih =>
    cases answer with
    | ok b => exact congrArg Nat.succ ih
    | error e => exact (congrArg Nat.succ ih).trans (Nat.add_right_comm _ _ 1)

theorem deliveredCons (piece : Piece) (pieces : List Piece) :
    delivered (piece::pieces) = piece.delivery ++ delivered pieces := rfl

/- Of the characters, those that a failure parts are missing. -/
theorem charactersLost (pieces : List Piece) :
    (delivered pieces).characters.length+pieces.countP isParted =
      (pieces.filterMap character?).length := by
  induction pieces with
  | nil => rfl
  | cons piece pieces ih =>
    rw [deliveredCons]
    cases piece <;> simp [delivery,character?,isParted,List.filterMap_cons,List.countP_cons] <;> omega

/- Each character that a failure parts is the cause of a failure more at least. -/
theorem failuresMore (pieces : List Piece) :
    (interruptions (pieces.flatMap answers)).length+pieces.countP isParted ≤
      (delivered pieces).failures.length := by
  induction pieces with
  | nil => exact Nat.le_refl _
  | cons piece pieces ih =>
    rw [deliveredCons]
    cases piece with
    | failure e => simp [delivery,answers,isParted]; omega
    | whole ch => simp [delivery,answers,isParted]; omega
    | parted ch lead early e later goes bytes =>
      have more := strandedFailures later
      have positive : 0 < (received later).length := List.length_pos_iff.mpr goes
      simp [delivery,answers,isParted,List.countP_cons]
      omega

theorem kept {pieces : List Piece} (unparted : ∀ piece ∈ pieces, piece.isParted = false) :
    (delivered pieces).characters = pieces.filterMap character? ∧
      (delivered pieces).failures = interruptions (pieces.flatMap answers) := by
  induction pieces with
  | nil => exact ⟨rfl,rfl⟩
  | cons piece pieces ih =>
    obtain ⟨here,others⟩ := List.forall_mem_cons.mp unparted
    rw [deliveredCons]
    cases piece with
    | failure e => simp [delivery,character?,answers,List.filterMap_cons,ih others]
    | whole ch => simp [delivery,character?,answers,ih others]
    | parted => cases here

end Piece

namespace Utf8Source

/- How a feed is read that gives the bytes of a text with failures among them. -/
structure Interrupted (feed : ByteFeed) (text : String) (pieces : List Piece) : Prop where
  given : pieces.flatMap Piece.answers = feed.answers
  spelt : pieces.filterMap Piece.character? = text.toList
  delivers : Delivers (mk feed) (Piece.delivered pieces)
  characters : (Piece.delivered pieces).characters = text.toList ↔
    ∀ piece ∈ pieces, piece.isParted = false
  failures : (Piece.delivered pieces).failures = interruptions feed.answers ↔
    ∀ piece ∈ pieces, piece.isParted = false

/- However failures interrupt the bytes of a text, its characters are read but for those
that a failure parts, and nothing but the failures is reported unless there are such. -/
theorem interruptedText {feed : ByteFeed} {text : String} (filled : .bytes [] ∉ feed.packets)
    (carries : received feed.answers = Text.utf8 text) :
    ∃ pieces, Interrupted feed text pieces := by
  have encoded := Text.utf8OfList text.toList
  rw [String.ofList_toList] at encoded
  obtain ⟨pieces,given,spelt⟩ := piecesOf (carries.trans encoded)
  have lost := Piece.charactersLost pieces
  have more := Piece.failuresMore pieces
  rw [spelt] at lost
  rw [given] at more
  have unparted : pieces.countP Piece.isParted = 0 → ∀ piece ∈ pieces, piece.isParted = false :=
    fun nowhere piece member => by simpa using List.countP_eq_zero.mp nowhere piece member
  refine ⟨pieces,given,spelt,piecesDelivered pieces ⟨given.symm,filled⟩,⟨?_,?_⟩,⟨?_,?_⟩⟩
  · intro same
    rw [same] at lost
    exact unparted (by omega)
  · exact fun none => (Piece.kept none).1.trans spelt
  · intro same
    rw [same] at more
    exact unparted (by omega)
  · exact fun none => (Piece.kept none).2.trans (congrArg interruptions given)

/- Failures before a character and between two. -/
theorem interruptedTextSample : ∃ (feed : ByteFeed) (e : ReadError),
    feed = .ofPackets [.failure e,.bytes [0xC3,0xA9],.failure e,.bytes [0x61]] ∧
      .bytes [] ∉ feed.packets ∧ received feed.answers = Text.utf8 "éa" ∧
      ∃ pieces, Interrupted feed "éa" pieces := by
  let e : ReadError := ⟨.timedOut,""⟩
  let feed : ByteFeed := .ofPackets [.failure e,.bytes [0xC3,0xA9],.failure e,.bytes [0x61]]
  have filled : .bytes [] ∉ feed.packets := by decide
  have carries : received feed.answers = Text.utf8 "éa" := (Text.utf8OfList ['é','a']).symm
  exact ⟨feed,e,rfl,filled,carries,interruptedText filled carries⟩

/- A failure between the two bytes of the only character of a text. -/
theorem partedCharacterLost : ∃ (feed : ByteFeed) (e : ReadError),
    feed = .ofPackets [.bytes [0xC3],.failure e,.bytes [0xA9]] ∧ .bytes [] ∉ feed.packets ∧
      received feed.answers = Text.utf8 "é" ∧ interruptions feed.answers = [e] ∧
      ∀ d, Delivers (mk feed) d →
        d.characters ≠ "é".toList ∧ d.failures ≠ interruptions feed.answers := by
  let e : ReadError := ⟨.timedOut,""⟩
  let feed : ByteFeed := .ofPackets [.bytes [0xC3],.failure e,.bytes [0xA9]]
  have delivers : Delivers (mk feed) [.error e,.error (Utf8.badLead 0xA9)] :=
    .failure rfl (.failure rfl (.finished rfl))
  refine ⟨feed,e,rfl,by decide,(Text.utf8OfList ['é']).symm,rfl,fun d delivered => ?_⟩
  cases delivers.unique delivered
  exact ⟨by decide,by decide⟩

end Utf8Source
end Munch
