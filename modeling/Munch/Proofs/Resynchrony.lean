import Munch.Proofs.Sequences

/-! Reading on after malformed bytes. A reading is the calls up to the first report of the end,
each with its answer and the bytes it takes. No call that begins before a text takes any byte of
the text, for the text does not begin with a continuation byte. Main statement: whatever bytes
stand in front of a text, they are read as if they stood alone, a failure at their end apart,
and then the text is read character by character; every call takes a byte at least. -/
namespace Munch
namespace Utf8

/- No sequence goes on into these bytes. -/
def Fresh (bytes : List UInt8) : Prop := ∀ b ∈ bytes.head?, isContinuation b = false

theorem leadsFresh {lead : UInt8} {n : Nat} (leads : Leads lead n) : isContinuation lead = false := by
  cases continues : isContinuation lead with
  | false => rfl
  | true =>
    have stranded := strandedWidth continues
    rw [widthOfLeads leads] at stranded
    cases stranded

theorem textFresh (text : List Char) : Fresh (text.flatMap String.utf8EncodeChar) := by
  cases text with
  | nil => simp [Fresh]
  | cons ch text =>
    obtain ⟨lead,tail,encoded,spells⟩ := encodeSpells ch
    simpa [Fresh,encoded] using leadsFresh (leadsOfWidth spells.width)

variable {after : List UInt8}

theorem continuingAppend (fresh : Fresh after) (count : Nat) (garbage : List UInt8) :
    continuing count (garbage ++ after) = continuing count garbage := by
  have none : after.takeWhile isContinuation = [] := by
    cases after with
    | nil => rfl
    | cons b after => simpa [Fresh] using fresh
  rw [continuing,continuing,List.takeWhile_append,none,List.append_nil]
  split
  · rename_i whole
    rw [(List.takeWhile_prefix _).eq_of_length whole]
  · rfl

theorem beyondAppend (fresh : Fresh after) (count : Nat) (garbage : List UInt8) :
    beyond count (garbage ++ after) = beyond count garbage ++ after := by
  apply List.append_cancel_left
  calc continuing count garbage ++ beyond count (garbage ++ after)
      = garbage ++ after := by rw [← continuingAppend fresh,continuingBeyond]
    _ = continuing count garbage ++ (beyond count garbage ++ after) := by
      rw [← List.append_assoc,continuingBeyond]

/- What follows bytes in front of it does not change what is read of them, but for the
failure at their end. -/
theorem frontAppend (fresh : Fresh after) (lead : UInt8) (garbage : List UInt8) :
    (front (lead::(garbage ++ after))).2 = (front (lead::garbage)).2 ++ after ∧
      (front (lead::(garbage ++ after))).1.toOption = (front (lead::garbage)).1.toOption := by
  cases wide : width lead with
  | none => simp [front,wide]
  | some n =>
    simp only [front,wide,continuingAppend fresh,beyondAppend fresh,true_and]
    unfold verdict
    split <;> rfl

theorem frontTakes (lead : UInt8) (bytes : List UInt8) :
    ∃ tail, lead::bytes = lead::tail ++ (front (lead::bytes)).2 := by
  cases wide : width lead with
  | none => exact ⟨[],by simp [front,wide]⟩
  | some n => exact ⟨continuing (n-1) bytes,by simp [front,wide,continuingBeyond]⟩

theorem frontCalled (lead : UInt8) (bytes : List UInt8) :
    ∃ answer : Except ReadError Char, (front (lead::bytes)).1 = answer.map some := by
  cases read : (front (lead::bytes)).1 with
  | error e => exact ⟨.error e,rfl⟩
  | ok found =>
    cases found with
    | none => cases frontFinished read
    | some ch => exact ⟨.ok ch,rfl⟩

end Utf8

namespace Utf8Source

/- A call that does not report the end: its answer and the bytes it takes. -/
structure Call where
  answer : Except ReadError Char
  bytes : List UInt8

namespace Call

def whole (ch : Char) : Call := ⟨.ok ch,String.utf8EncodeChar ch⟩

def characters (calls : List Call) : List Char := Delivery.characters (calls.map answer)

/- Two calls that take the same bytes for the same character, or fail both. -/
structure Alike (a b : Call) : Prop where
  bytes : a.bytes = b.bytes
  character : a.answer.toOption = b.answer.toOption

theorem sameCharacter {a b : Except ReadError Char}
    (same : (a.map some).toOption = (b.map some).toOption) : a.toOption = b.toOption := by
  cases a <;> cases b <;> cases same <;> rfl

/- The call is answered by the one source and leaves the other. -/
structure Made (call : Call) (s s' : Utf8Source) : Prop where
  read : CharSource.read s = (call.answer.map some,s')
  takes : s.feed.unread = call.bytes ++ s'.feed.unread

end Call

/- A reading: the calls up to the first report of the end. -/
inductive Calls : Utf8Source → List Call → Prop where
  | finished {s s'} (read : CharSource.read s = (.ok none,s')) : Calls s []
  | called {s s' call calls} (made : call.Made s s') (further : Calls s' calls) :
      Calls s (call::calls)

variable {f alone : ByteFeed}

theorem textCalls {text : List Char} (gives : f.Gives ((text.flatMap String.utf8EncodeChar).map .ok)) :
    Calls (mk f) (text.map Call.whole) := by
  induction text generalizing f with
  | nil => exact .finished (reads (Utf8.readOver gives))
  | cons ch text ih =>
    have unread := (ByteFeed.flowsIff.mp gives).2
    rw [List.flatMap_cons,List.map_append] at gives
    obtain ⟨f',read,gives'⟩ := Utf8.readWhole gives
    have unread' := (ByteFeed.flowsIff.mp gives').2
    refine .called ⟨reads read,?_⟩ (ih gives')
    rw [unread,unread',List.flatMap_cons]
    rfl

theorem frontMade {lead : UInt8} {bytes : List UInt8} (gives : f.Gives ((lead::bytes).map .ok)) :
    ∃ call f', Call.Made call (mk f) (mk f') ∧ f'.Gives ((Utf8.front (lead::bytes)).2.map .ok) ∧
      call.answer.map some = (Utf8.front (lead::bytes)).1 ∧
      call.bytes ++ (Utf8.front (lead::bytes)).2 = lead::bytes ∧ call.bytes ≠ [] := by
  obtain ⟨f',read,gives'⟩ := Utf8.readFront gives
  obtain ⟨answer,called⟩ := Utf8.frontCalled lead bytes
  obtain ⟨tail,taken⟩ := Utf8.frontTakes lead bytes
  refine ⟨⟨answer,lead::tail⟩,f',⟨reads (called ▸ read),?_⟩,gives',called.symm,taken.symm,by simp⟩
  rw [(ByteFeed.flowsIff.mp gives).2,(ByteFeed.flowsIff.mp gives').2]
  exact taken

/- One call at the front of bytes, with other bytes behind them and without. -/
theorem garbageCall {lead : UInt8} {garbage after : List UInt8} (fresh : Utf8.Fresh after)
    (gives : f.Gives ((lead::(garbage ++ after)).map .ok))
    (lone : alone.Gives ((lead::garbage).map .ok)) :
    ∃ call call' left f' alone', Call.Made call (mk f) (mk f') ∧
      Call.Made call' (mk alone) (mk alone') ∧ call.Alike call' ∧ call.bytes ≠ [] ∧
      f'.Gives ((left ++ after).map .ok) ∧ alone'.Gives (left.map .ok) ∧
      left.length < (lead::garbage).length := by
  obtain ⟨left,same⟩ := Utf8.frontAppend fresh lead garbage
  obtain ⟨call,f',made,gives',answer,taken,filled⟩ := frontMade gives
  obtain ⟨call',alone',made',lone',answer',taken',filled'⟩ := frontMade lone
  rw [left] at gives' taken
  have whole : call.bytes ++ ((Utf8.front (lead::garbage)).2 ++ after) =
      call'.bytes ++ ((Utf8.front (lead::garbage)).2 ++ after) := by
    rw [taken,← List.append_assoc,taken',List.cons_append]
  rw [← answer,← answer'] at same
  have fewer : (Utf8.front (lead::garbage)).2.length < (lead::garbage).length := by
    have positive := List.length_pos_iff.mpr filled'
    have lengths := congrArg List.length taken'
    simp only [List.length_append] at lengths
    omega
  exact ⟨call,call',_,f',alone',made,made',⟨List.append_cancel_right whole,Call.sameCharacter same⟩,
    filled,gives',lone',fewer⟩

/- The calls that read bytes alone are made whatever text follows them. -/
theorem garbageCalls {garbage : List UInt8} {text : List Char}
    (gives : f.Gives ((garbage ++ text.flatMap String.utf8EncodeChar).map .ok))
    (lone : alone.Gives (garbage.map .ok)) :
    ∃ first others, Calls (mk f) (first ++ text.map Call.whole) ∧ Calls (mk alone) others ∧
      List.Forall₂ Call.Alike first others ∧ ∀ call ∈ first, call.bytes ≠ [] := by
  -- Each call takes a byte at least.
  generalize size : garbage.length = count
  induction count using Nat.strongRecOn generalizing f alone garbage with
  | ind count ih =>
    cases garbage with
    | nil => exact ⟨[],[],textCalls gives,.finished (reads (Utf8.readOver lone)),.nil,nofun⟩
    | cons lead garbage =>
      obtain ⟨call,call',left,f',alone',made,made',alike,filled,gives',lone',fewer⟩ :=
        garbageCall (Utf8.textFresh text) gives lone
      obtain ⟨first,others,reading,reading',further,takes⟩ := ih _ (size ▸ fewer) gives' lone' rfl
      exact ⟨call::first,call'::others,.called made reading,.called made' reading',
        .cons alike further,List.forall_mem_cons.mpr ⟨filled,takes⟩⟩

namespace Call

theorem charactersCons (call : Call) (calls : List Call) :
    characters (call::calls) = call.answer.toOption.toList ++ characters calls := by
  obtain ⟨answer,bytes⟩ := call
  cases answer <;> rfl

theorem charactersWhole (text : List Char) : characters (text.map whole) = text := by
  induction text with
  | nil => rfl
  | cons ch text ih => exact congrArg (List.cons ch) ih

theorem charactersAppend (calls others : List Call) :
    characters (calls ++ others) = characters calls ++ characters others := by
  simp [characters]

theorem alikeCharacters {calls others : List Call} (alike : List.Forall₂ Alike calls others) :
    characters calls = characters others := by
  induction alike with
  | nil => rfl
  | cons first further ih => rw [charactersCons,charactersCons,first.character,ih]

theorem alikeBytes {calls others : List Call} (alike : List.Forall₂ Alike calls others) :
    calls.map bytes = others.map bytes := by
  induction alike with
  | nil => rfl
  | cons first further ih => rw [List.map_cons,List.map_cons,first.bytes,ih]

theorem wholeTakes (ch : Char) : (whole ch).bytes ≠ [] := by
  obtain ⟨lead,tail,encoded,_⟩ := Utf8.encodeSpells ch
  simp [whole,encoded]

end Call

/- How a text is read that follows other bytes, and how these are read alone. -/
structure Resynchronised (feed alone : Utf8Source) (text : List Char) (calls others : List Call) :
    Prop where
  reading : Calls feed calls
  alone : Calls alone others
  characters : Call.characters calls = Call.characters others ++ text
  bytes : calls.map Call.bytes = others.map Call.bytes ++ text.map String.utf8EncodeChar
  takes : ∀ call ∈ calls, call.bytes ≠ []

/- Whatever bytes precede a text, its characters follow those read of the bytes alone. -/
theorem resynchronises {feed alone : ByteFeed} {text : String} (flows : feed.Flows)
    (lone : alone.Flows) (follows : feed.unread = alone.unread ++ Text.utf8 text) :
    ∃ calls others, Resynchronised (mk feed) (mk alone) text.toList calls others := by
  rw [Text.utf8ToList] at follows
  obtain ⟨first,others,reading,reading',alike,takes⟩ :=
    garbageCalls (ByteFeed.flowsIff.mpr ⟨flows,follows⟩) (ByteFeed.flowsIff.mpr ⟨lone,rfl⟩)
  refine ⟨_,others,reading,reading',?_,?_,?_⟩
  · rw [Call.charactersAppend,Call.alikeCharacters alike,Call.charactersWhole]
  · rw [List.map_append,Call.alikeBytes alike,List.map_map]
    rfl
  · refine List.forall_mem_append.mpr ⟨takes,fun call member => ?_⟩
    obtain ⟨ch,_,rfl⟩ := List.mem_map.mp member
    exact Call.wholeTakes ch

/- A stranded byte and a sequence cut short, then a text cut within its second character. -/
theorem resynchronisesSample : ∃ feed alone : ByteFeed,
    feed = .ofPackets [.bytes [0x80,0xE4],.bytes [0xB8,0x61,0xC3],.bytes [0xA9]] ∧
      alone = .ofPackets [.bytes [0x80,0xE4,0xB8]] ∧ feed.Flows ∧ alone.Flows ∧
      feed.unread = alone.unread ++ Text.utf8 "aé" ∧
      ∃ calls others, Resynchronised (mk feed) (mk alone) "aé".toList calls others := by
  have filled : [] ∉ ([[0x80,0xE4],[0xB8,0x61,0xC3],[0xA9]] : List (List UInt8)) := by decide
  have filled' : [] ∉ ([[0x80,0xE4,0xB8]] : List (List UInt8)) := by decide
  have flows := ByteFeed.ofChunksFlows filled
  have lone := ByteFeed.ofChunksFlows filled'
  have encoded : Text.utf8 "aé" = _ := Text.utf8OfList ['a','é']
  have follows : ([0x80,0xE4,0xB8,0x61,0xC3,0xA9] : List UInt8) =
      [0x80,0xE4,0xB8] ++ Text.utf8 "aé" := by rw [encoded]; rfl
  exact ⟨_,_,rfl,rfl,flows,lone,follows,resynchronises flows lone follows⟩

end Utf8Source
end Munch
